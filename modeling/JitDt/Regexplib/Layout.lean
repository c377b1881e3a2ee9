import JitDt.Regexplib.Scanner

/-!
# Printed tokens

A file is a list of lexemes with gaps between them. In a gap there may be white space,
comments and semicolons; a word must not run into the next one. Backslashes in a string
are doubled. `gettoken` reads the lexemes back one by one, for both signs of `char`.
-/

namespace JitDt.Regexplib

set_option autoImplicit false

open Kwatcher (isspace)

def isWord (c : UInt8) : Bool := isAlpha c || isdigit c

/-- A name that is no keyword. -/
structure Ident where
  bytes : List UInt8
  start : ∃ c ∈ bytes.head?, isAlpha c
  chars : ∀ c ∈ bytes, isWord c
  short : bytes.length < strLen
  free : key.lookup bytes = none

structure Text where
  bytes : List UInt8
  printable : ∀ c ∈ bytes, isprint c
  unquoted : '"'.toUInt8 ∉ bytes
  short : bytes.length ≤ 126

def escape (s : List UInt8) : List UInt8 :=
  s.flatMap fun c => if c = '\\'.toUInt8 then ['\\'.toUInt8, '\\'.toUInt8] else [c]

def Key.bytes : Key → List UInt8
  | .region => ascii "region"
  | .sync => ascii "sync"
  | .fname => ascii "fname"
  | .pattern => ascii "pattern"
  | .date => ascii "date"
  | .type => ascii "type"
  | .threshold => ascii "threshold"

theorem lookup_bytes (k : Key) : key.lookup k.bytes = some k := by
  cases k <;> rfl

theorem Key.isName (k : Key) : (∃ c ∈ k.bytes.head?, isAlpha c) ∧ (∀ c ∈ k.bytes, isWord c) ∧
    k.bytes.length < strLen := by
  refine ⟨?_, List.all_eq_true.mp ?_, ?_⟩
  · cases k <;> exact ⟨_, rfl, rfl⟩
  · cases k <;> rfl
  · cases k <;> decide

inductive Lexeme where
  | key (k : Key)
  | word (n : Ident)
  | text (t : Text)
  | bgn
  | close
  | equ

namespace Lexeme

def bytes : Lexeme → List UInt8
  | .key k => k.bytes
  | .word n => n.bytes
  | .text t => '"'.toUInt8 :: escape t.bytes ++ ['"'.toUInt8]
  | .bgn => ['{'.toUInt8]
  | .close => ['}'.toUInt8]
  | .equ => ['='.toUInt8]

def token : Lexeme → Token
  | .key k => .key k
  | .word _ => .str
  | .text _ => .str
  | .bgn => .bgn
  | .close => .close
  | .equ => .equ

/-- The buffer of the caller after the lexeme was read. -/
def stored (str : List UInt8) : Lexeme → List UInt8
  | .word n => n.bytes
  | .text t => t.bytes
  | _ => str

def Wordlike : Lexeme → Prop
  | .key _ => True
  | .word _ => True
  | _ => False

end Lexeme

inductive Gap : List UInt8 → Prop where
  | nil : Gap []
  | blank {c : UInt8} {g : List UInt8} (hc : isspace c) (hg : Gap g) : Gap (c :: g)
  | delim {g : List UInt8} (hg : Gap g) : Gap (';'.toUInt8 :: g)
  | comment {text g : List UInt8} (htext : ∀ c ∈ text, c < 128 ∧ c ≠ '\n'.toUInt8) (hg : Gap g) :
      Gap ('#'.toUInt8 :: (text ++ '\n'.toUInt8 :: g))

/-- What follows a word does not continue it. -/
def Breaks (r : List UInt8) : Prop := ∃ c ∈ r.head?, isWord c = false

inductive Printed : List Lexeme → List UInt8 → Prop where
  | done {g : List UInt8} (hg : Gap g) : Printed [] g
  | cons {x : Lexeme} {xs : List Lexeme} {g r : List UInt8} (hg : Gap g)
      (hbreak : x.Wordlike → Breaks r) (hr : Printed xs r) : Printed (x :: xs) (g ++ (x.bytes ++ r))

/-- White space may be put in front of a file. -/
theorem Printed.blank {xs : List Lexeme} {r : List UInt8} (h : Printed xs r) {c : UInt8}
    (hc : isspace c) : Printed xs (c :: r) := by
  cases h with
  | done hg => exact .done (.blank hc hg)
  | cons hg hbreak hr => exact .cons (.blank hc hg) hbreak hr

/-- Every list of lexemes is printed with a blank behind each of them. -/
theorem printed_blanks (xs : List Lexeme) :
    Printed xs (xs.flatMap fun x => x.bytes ++ [' '.toUInt8]) := by
  induction xs with
  | nil => exact .done .nil
  | cons x xs ih =>
    rw [List.flatMap_cons, List.append_assoc]
    exact .cons .nil (fun _ => ⟨_, rfl, rfl⟩) (ih.blank rfl)

/-! ## No byte looks like the end of the file -/

theorem Gap.eof_notMem {g : List UInt8} (hg : Gap g) : eof ∉ g := by
  induction hg with
  | nil => simp
  | blank hc _ ih =>
    rw [List.mem_cons, not_or]
    refine ⟨?_, ih⟩
    rintro rfl
    exact absurd hc (by decide)
  | delim _ ih =>
    rw [List.mem_cons, not_or]
    exact ⟨by decide, ih⟩
  | comment htext _ ih =>
    rw [List.mem_cons, List.mem_append, List.mem_cons]
    rintro (h | h | h | h)
    · exact absurd h (by decide)
    · exact absurd (htext _ h).1 (by decide)
    · exact absurd h (by decide)
    · exact ih h

theorem Lexeme.eof_notMem (x : Lexeme) : eof ∉ x.bytes := by
  cases x with
  | key k => exact fun h => absurd (k.isName.2.1 _ h) (by decide)
  | word n => exact fun h => absurd (n.chars _ h) (by decide)
  | text t =>
    intro h
    rcases List.mem_cons.mp h with h | h
    · exact absurd h (by decide)
    · rcases List.mem_append.mp h with h | h
      · obtain ⟨c, hc, hmem⟩ := List.mem_flatMap.mp h
        have hprint := t.printable c hc
        split at hmem
        · exact absurd hmem (by decide)
        · rw [← List.mem_singleton.mp hmem] at hprint
          exact absurd hprint (by decide)
      · exact absurd h (by decide)
  | bgn => decide
  | close => decide
  | equ => decide

theorem Printed.eof_notMem {xs : List Lexeme} {r : List UInt8} (h : Printed xs r) : eof ∉ r := by
  induction h with
  | done hg => exact hg.eof_notMem
  | @cons x _ _ _ hg _ _ ih =>
    rw [List.mem_append, List.mem_append]
    rintro (h | h | h)
    · exact hg.eof_notMem h
    · exact x.eof_notMem h
    · exact ih h

/-- A word is followed by a character that is pushed back. -/
theorem Printed.next_char {xs : List Lexeme} {r : List UInt8} (h : Printed xs r) (hb : Breaks r) :
    ∃ c s, r = c :: s ∧ isWord c = false ∧ c ≠ eof := by
  obtain ⟨c, hc, hword⟩ := hb
  cases r with
  | nil => cases hc
  | cons d s =>
    obtain rfl : d = c := Option.some.inj hc
    refine ⟨d, s, rfl, hword, ?_⟩
    rintro rfl
    exact h.eof_notMem (List.mem_cons_self)

/-! ## Gaps -/

section Scanning
variable {signed : Bool}

theorem skipblank_comment {text : List UInt8} (h : ∀ c ∈ text, c < 128 ∧ c ≠ '\n'.toUInt8)
    (line : Nat) (s : List UInt8) :
    skipblank signed true line (text ++ '\n'.toUInt8 :: s) = skipblank signed false (line + 1) s := by
  induction text with
  | nil => rfl
  | cons c text ih =>
    obtain ⟨hc, hn⟩ := h c List.mem_cons_self
    have hne : c ≠ eof := by
      rintro rfl
      exact absurd hc (by decide)
    rw [List.cons_append, skipblank, if_neg (by simp [hn, hne])]
    exact ih fun d hd => h d (List.mem_cons_of_mem _ hd)

theorem skipblank_start {c : UInt8} (hspace : isspace c = false) (hhash : c ≠ '#'.toUInt8)
    (line : Nat) (s : List UInt8) : skipblank signed false line (c :: s) = some (c, s, line) := by
  rw [skipblank, if_neg (by simp [hspace]), if_neg hhash]

/-- `gettoken` depends only on what `skipblank` finds. -/
theorem gettokenFrom_congr {k : Nat} {s t : Scan}
    (h : skipblank signed false s.line s.input = skipblank signed false t.line t.input)
    (hstr : s.str = t.str) : gettokenFrom signed k s = gettokenFrom signed k t := by
  have hbody : ∀ retry, gettokenBody signed retry s = gettokenBody signed retry t := by
    intro retry
    unfold gettokenBody
    rw [h, hstr]
  cases k with
  | zero => exact hbody _
  | succ k => exact hbody _

theorem gettokenFrom_delim (k line : Nat) (s str : List UInt8) :
    gettokenFrom signed (k + 1) ⟨';'.toUInt8 :: s, line, str⟩ = gettokenFrom signed k ⟨s, line, str⟩ :=
  rfl

theorem gettokenFrom_gap {g : List UInt8} (hg : Gap g) {k : Nat} (hk : g.length ≤ k) (line : Nat)
    (r str : List UInt8) : ∃ k' line', gettokenFrom signed k ⟨g ++ r, line, str⟩ =
      gettokenFrom signed k' ⟨r, line', str⟩ := by
  induction hg generalizing k line with
  | nil => exact ⟨k, line, rfl⟩
  | @blank c g hc _ ih =>
    obtain ⟨k', line', hrest⟩ := @ih k (by simp at hk; omega)
      (if c = '\n'.toUInt8 then line + 1 else line)
    refine ⟨k', line', (gettokenFrom_congr ?_ ?_).trans hrest⟩
    · rw [List.cons_append, skipblank, if_pos hc]
    · rfl
  | delim _ ih =>
    cases k with
    | zero => simp at hk
    | succ k =>
      obtain ⟨k', line', hrest⟩ := @ih k (by simpa using hk) line
      exact ⟨k', line', (gettokenFrom_delim k line _ str).trans hrest⟩
  | @comment text g htext _ ih =>
    obtain ⟨k', line', hrest⟩ := @ih k (by simp at hk; omega) (line + 1)
    refine ⟨k', line', (gettokenFrom_congr ?_ ?_).trans hrest⟩
    · rw [List.cons_append, skipblank, if_neg (by decide), if_pos rfl, List.append_assoc]
      exact skipblank_comment htext line _
    · rfl

/-! ## Lexemes -/

theorem collectWhile_eq {p : UInt8 → Bool} {w : List UInt8} {k : Nat} (hw : w.length ≤ k)
    (hp : ∀ e ∈ w, p e) {d : UInt8} (hd : p d = false) (c : UInt8) (s : List UInt8) :
    collectWhile p k c (w ++ d :: s) = (c :: w, d, s) := by
  induction w generalizing k c with
  | nil =>
    cases k with
    | zero => rfl
    | succ k => simp [collectWhile, getc, hd]
  | cons e w ih =>
    cases k with
    | zero => simp at hw
    | succ k =>
      have he := hp e List.mem_cons_self
      have hrest := @ih k (by simpa using hw) (fun e' h => hp e' (List.mem_cons_of_mem _ h)) e
      simp [collectWhile, getc, he, hrest]

theorem getChar_escape (c : UInt8) (t r : List UInt8) :
    getChar (escape (c :: t) ++ r) = (c, escape t ++ r) := by
  by_cases hb : c = '\\'.toUInt8
  · subst hb
    rfl
  · have hesc : escape (c :: t) ++ r = c :: (escape t ++ r) := by simp [escape, hb]
    rw [hesc, getChar, getc, if_neg hb]

/-- The loop over a string ends where `getChar` yields a double quote, escaped or not. -/
theorem quoted_end {t e r : List UInt8} {k : Nat} (hk : t.length < k) (hprint : ∀ c ∈ t, isprint c)
    (hquote : '"'.toUInt8 ∉ t) (hend : getChar e = ('"'.toUInt8, r)) :
    quoted k (escape t ++ e) = (t ++ ['"'.toUInt8], r) := by
  induction t generalizing k with
  | nil =>
    cases k with
    | zero => simp at hk
    | succ k =>
      have hesc : escape [] ++ e = e := rfl
      rw [hesc, quoted, hend]
      rfl
  | cons c t ih =>
    cases k with
    | zero => simp at hk
    | succ k =>
      rw [List.mem_cons, not_or] at hquote
      have hc := hprint c List.mem_cons_self
      have hne : c ≠ '"'.toUInt8 := fun h => hquote.1 h.symm
      have hrest := @ih k (by simpa using hk) (fun d hd => hprint d (List.mem_cons_of_mem _ hd))
        hquote.2
      have hgo : (isprint c && decide (c ≠ '"'.toUInt8)) = true := by simp [hc, hne]
      rw [quoted, getChar_escape]
      simp only [hrest, if_pos hgo, List.cons_append]

variable {retry : Scan → Option (Token × Scan)}

theorem ungetc_of_ne {c : UInt8} (h : c ≠ eof) (s : List UInt8) : ungetc signed c s = c :: s := by
  rw [ungetc, if_neg (by simp [h])]

theorem isAlpha_start {c : UInt8} (h : isAlpha c) : isspace c = false ∧ c ≠ '#'.toUInt8 := by
  constructor
  · rw [← Bool.not_eq_true]
    intro hs
    have hminus : '-'.toUInt8 = 45 := rfl
    have hunder : '_'.toUInt8 = 95 := rfl
    simp only [isspace, isAlpha, isalpha, Bool.or_eq_true, Bool.and_eq_true, decide_eq_true_eq,
      hminus, hunder, UInt8.le_iff_toNat_le, ← UInt8.toNat_inj, UInt8.reduceToNat] at h hs
    omega
  · rintro rfl
    exact absurd h (by decide)

theorem gettokenBody_word {w : List UInt8} (hstart : ∃ c ∈ w.head?, isAlpha c)
    (hchars : ∀ c ∈ w, isWord c) (hshort : w.length < strLen) {d : UInt8} (hd : isWord d = false)
    (hne : d ≠ eof) (line : Nat) (s str : List UInt8) :
    gettokenBody signed retry ⟨w ++ d :: s, line, str⟩ =
      some ((key.lookup w).elim (.str, ⟨d :: s, line, w⟩) fun k => (.key k, ⟨d :: s, line, str⟩)) := by
  obtain ⟨c, hc, halpha⟩ := hstart
  cases w with
  | nil => cases hc
  | cons e w =>
    obtain rfl : e = c := Option.some.inj hc
    obtain ⟨hspace, hhash⟩ := isAlpha_start halpha
    have hcollect : collectWhile (fun c => isAlpha c || isdigit c) (strLen - 1) e (w ++ d :: s) =
        (e :: w, d, s) := by
      apply collectWhile_eq
      · simp [strLen] at hshort ⊢
        omega
      · exact fun b hb => hchars b (List.mem_cons_of_mem _ hb)
      · exact hd
    unfold gettokenBody
    rw [List.cons_append, skipblank_start hspace hhash]
    simp only [halpha, if_true, wordToken, hcollect, if_neg hshort.ne, ungetc_of_ne hne]
    cases key.lookup (e :: w) <;> rfl

theorem gettokenBody_quoted (t : Text) {e r : List UInt8} (hend : getChar e = ('"'.toUInt8, r))
    (line : Nat) (str : List UInt8) :
    gettokenBody signed retry ⟨'"'.toUInt8 :: (escape t.bytes ++ e), line, str⟩ =
      some (.str, ⟨r, line, t.bytes⟩) := by
  have hquoted : quoted strLen (escape t.bytes ++ e) = (t.bytes ++ ['"'.toUInt8], r) := by
    apply quoted_end
    · have := t.short
      simp only [strLen]
      omega
    · exact t.printable
    · exact t.unquoted
    · exact hend
  have hlen : (t.bytes ++ ['"'.toUInt8]).length ≠ strLen := by
    have := t.short
    simp only [List.length_append, List.length_singleton, strLen]
    omega
  calc gettokenBody signed retry ⟨'"'.toUInt8 :: (escape t.bytes ++ e), line, str⟩
      = some (stringToken ⟨escape t.bytes ++ e, line, str⟩) := rfl
    _ = some (.str, ⟨r, line, t.bytes⟩) := by
        simp only [stringToken, hquoted, if_neg hlen, List.dropLast_concat]

theorem gettokenBody_text (t : Text) (line : Nat) (r str : List UInt8) :
    gettokenBody signed retry ⟨(Lexeme.text t).bytes ++ r, line, str⟩ =
      some (.str, ⟨r, line, t.bytes⟩) := by
  have hbytes : (Lexeme.text t).bytes ++ r =
      '"'.toUInt8 :: (escape t.bytes ++ '"'.toUInt8 :: r) := by
    rw [Lexeme.bytes, List.cons_append, List.cons_append, List.append_assoc]
    rfl
  rw [hbytes]
  exact gettokenBody_quoted t rfl line str

theorem gettokenBody_lexeme (x : Lexeme) {r : List UInt8}
    (hr : x.Wordlike → ∃ c s, r = c :: s ∧ isWord c = false ∧ c ≠ eof) (line : Nat)
    (str : List UInt8) :
    gettokenBody signed retry ⟨x.bytes ++ r, line, str⟩ = some (x.token, ⟨r, line, x.stored str⟩) := by
  cases x with
  | key k =>
    obtain ⟨c, s, rfl, hc, hne⟩ := hr trivial
    obtain ⟨hstart, hchars, hshort⟩ := k.isName
    rw [Lexeme.bytes, gettokenBody_word hstart hchars hshort hc hne, lookup_bytes]
    rfl
  | word n =>
    obtain ⟨c, s, rfl, hc, hne⟩ := hr trivial
    rw [Lexeme.bytes, gettokenBody_word n.start n.chars n.short hc hne, n.free]
    rfl
  | text t => exact gettokenBody_text t line r str
  | bgn => rfl
  | close => rfl
  | equ => rfl

/-- `gettoken` reads the first lexeme and leaves the others. -/
theorem gettoken_printed {x : Lexeme} {xs : List Lexeme} {s : Scan}
    (h : Printed (x :: xs) s.input) : ∃ t, gettoken signed s = some (x.token, t) ∧
      Printed xs t.input ∧ t.str = x.stored s.str := by
  obtain ⟨input, line, str⟩ := s
  cases h with
  | @cons _ _ g r hg hbreak hr =>
    obtain ⟨k, line', hgap⟩ := @gettokenFrom_gap signed g hg (g ++ (x.bytes ++ r)).length
      (by simp) line (x.bytes ++ r) str
    refine ⟨⟨r, line', x.stored str⟩, ?_, hr, rfl⟩
    refine hgap.trans ?_
    have hword : x.Wordlike → ∃ c s, r = c :: s ∧ isWord c = false ∧ c ≠ eof :=
      fun hw => hr.next_char (hbreak hw)
    cases k with
    | zero => exact gettokenBody_lexeme x hword line' str
    | succ k => exact gettokenBody_lexeme x hword line' str

/-- Behind the last lexeme there is nothing but the end of the file. -/
theorem gettoken_done {s : Scan} (h : Printed [] s.input) :
    ∃ t, gettoken signed s = some (.errChr, t) := by
  obtain ⟨input, line, str⟩ := s
  cases h with
  | done hg =>
    obtain ⟨k, line', hgap⟩ := @gettokenFrom_gap signed input hg input.length (le_refl _) line [] str
    rw [List.append_nil] at hgap
    refine ⟨⟨[], line', str⟩, ?_⟩
    refine hgap.trans ?_
    cases k <;> rfl

end Scanning

end JitDt.Regexplib
