import JitDt.Lib.Halting
import JitDt.Regexplib.Acceptor

/-!
# `readconf` as a program that calls `getc`

The loops of `skipblank` and `gettoken` one `getc` at a time: a step reads a character and goes
on to the next `getc`, pushing the character back where a token ends. Nothing here counts the
steps, so a loop that never ends never ends here either. What a step stores is put out as
events. It does what `readconf` does.
-/

namespace JitDt.Regexplib

set_option autoImplicit false

open Kwatcher (isspace)
open StateTransition (Reaches)
open Halting

/-- An index that is used on the buffer of `gettoken` or on a table, or a string that is copied
to the caller. Reading the buffer ends at the NUL that was stored. -/
inductive Event where
  | buf (i : Nat)
  | str (s : List UInt8)
  | conf (i : Nat)
  | synctype (i : Nat)

/-- Where the next `getc` stands, with what is in the buffer; or how `readconf` has ended. -/
inductive Ctl where
  | blank
  | comment
  | word (b : List UInt8)
  | dollar
  | num (tktype : Int32 → Token) (b : List UInt8)
  | text (b : List UInt8)
  | escaped (b : List UInt8)
  | returned
  | exited

structure Config extends Stand where
  ctl : Ctl

abbrev Step := List Event × Option Config

/-! ## The ends of the tokens -/

def wordEnd (b : List UInt8) (s : Scan) : Token × Scan :=
  if b.length = strLen then (.errLen, s)
  else
    match key.lookup b with
    | some k => (.key k, s)
    | none => (.str, { s with str := b })

def numEnd (signed : Bool) (tktype : Int32 → Token) (b : List UInt8) (ch : UInt8) (s : Scan) :
    Token × Scan :=
  if b.length = strLen then (.errLen, s)
  else (tktype (atoi b), { s with input := ungetc signed ch s.input })

def textEnd (b : List UInt8) (s : Scan) : Token × Scan :=
  if b.length = strLen then (.errLen, s) else (.str, { s with str := b.dropLast })

/-- The NUL behind a token that is not too long. -/
def terminator (b : List UInt8) (i : Nat) : List Event := if b.length = strLen then [] else [.buf i]

namespace Stand

def seek (x : Stand) (s : List UInt8) (line : Nat) : Stand :=
  { x with scan := { x.scan with input := s, line := line } }

def goto (x : Stand) (ctl : Ctl) (es : List Event) : Step := (es, some ⟨x, ctl⟩)

/-- How `readconf` ends if it does not go on. -/
def verdict (x : Stand) (tkn : Token) : Ctl :=
  match x.pos with
  | .top => if tkn.ok then .exited else .returned
  | _ => .exited

/-- `readconf` behind a token. -/
def after (x : Stand) (tkn : Token) : Config :=
  match take x.tables x.scan.str x.pos tkn with
  | some y => ⟨⟨⟨x.scan, y.2⟩, y.1⟩, .blank⟩
  | none => ⟨x, x.verdict tkn⟩

/-- The table that `readconf` writes to if it goes on behind a token. -/
def stores (x : Stand) : List Event :=
  match x.pos with
  | .brace _ => [.conf x.tables.cent]
  | .value (some _) _ => [.conf x.tables.cent]
  | .value none _ => [.synctype x.tables.sent]
  | _ => []

/-- The place behind a call of `gettoken` with this result. -/
def passed (x : Stand) (r : Token × Scan) : Config := { x with scan := r.2 }.after r.1

/-- `gettoken` returns. -/
def finish (x : Stand) (es : List Event) (r : Token × Scan) : Step :=
  (es ++ (if r.1 = .str then [.str r.2.str] else []) ++
    (if (take x.tables r.2.str x.pos r.1).isSome then x.stores else []), some (x.passed r))

/-- `gettoken` behind `skipblank`. -/
def dispatch (x : Stand) (ch : UInt8) : Step :=
  if isAlpha ch then x.goto (.word [ch]) [.buf 0]
  else if isdigit ch then x.goto (.num .int [ch]) [.buf 0]
  else if ch = '$'.toUInt8 then x.goto .dollar []
  else if ch = ';'.toUInt8 then x.goto .blank []
  else if ch = '"'.toUInt8 then x.goto (.text []) []
  else if ch = '{'.toUInt8 then x.finish [] (.bgn, x.scan)
  else if ch = '}'.toUInt8 then x.finish [] (.close, x.scan)
  else if ch = '='.toUInt8 then x.finish [] (.equ, x.scan)
  else x.finish [] (.errChr, x.scan)

/-- The end of the loop over a string. -/
def store (x : Stand) (b : List UInt8) (ch : UInt8) : Step :=
  if (b ++ [ch]).length < strLen ∧ isprint ch ∧ ch ≠ '"'.toUInt8 then
    x.goto (.text (b ++ [ch])) [.buf b.length]
  else
    x.finish (.buf b.length :: terminator (b ++ [ch]) ((b ++ [ch]).length - 1))
      (textEnd (b ++ [ch]) x.scan)

end Stand

section Machine
variable (signed : Bool)

/-- From one `getc` to the next; `ch` is the character and `x` the place behind it. -/
def turn (x : Stand) (ch : UInt8) : Ctl → Step
  | .blank =>
    if isspace ch then
      (x.seek x.scan.input (if ch = '\n'.toUInt8 then x.scan.line + 1 else x.scan.line)).goto .blank []
    else if ch = '#'.toUInt8 then x.goto .comment []
    else x.dispatch ch
  | .comment =>
    if endsComment signed ch then (x.seek x.scan.input (x.scan.line + 1)).goto .blank []
    else x.goto .comment []
  | .word b =>
    if b.length < strLen ∧ isWord ch then x.goto (.word (b ++ [ch])) [.buf b.length]
    else
      x.finish (terminator b b.length)
        (wordEnd b { x.scan with input := ungetc signed ch x.scan.input })
  | .dollar => x.goto (.num .pos [ch]) [.buf 0]
  | .num tktype b =>
    if b.length < strLen ∧ isdigit ch then x.goto (.num tktype (b ++ [ch])) [.buf b.length]
    else x.finish (terminator b b.length) (numEnd signed tktype b ch x.scan)
  | .text b => if ch = '\\'.toUInt8 then x.goto (.escaped b) [] else x.store b ch
  | .escaped b => x.store b ch
  | .returned => ([], none)
  | .exited => ([], none)

def step (c : Config) : Step :=
  turn signed (c.seek (getc c.scan.input).2 c.scan.line) (getc c.scan.input).1 c.ctl

def move (c : Config) : Option Config := (step signed c).2

/-- The file has been opened. -/
def opened (content buf : List UInt8) : Config := ⟨start content buf, .blank⟩

end Machine

/-! ## What a step leaves of the file -/

theorem Stand.passed_scan (x : Stand) (r : Token × Scan) : (x.passed r).scan = r.2 := by
  unfold Stand.passed Stand.after
  split <;> rfl

section Input
variable {signed : Bool} {x : Stand} {ch : UInt8} {c : Config}

theorem dispatch_input (h : (x.dispatch ch).2 = some c) : c.scan.input = x.scan.input := by
  unfold Stand.dispatch at h
  split_ifs at h
  all_goals obtain rfl := Option.some.inj h
  iterate 5 rfl
  all_goals rw [Stand.passed_scan]

theorem store_input {b : List UInt8} (h : (x.store b ch).2 = some c) :
    c.scan.input = x.scan.input := by
  unfold Stand.store at h
  split at h
  · obtain rfl := Option.some.inj h
    rfl
  · obtain rfl := Option.some.inj h
    rw [Stand.passed_scan]
    unfold textEnd
    split <;> rfl

/-- At most the character that was read is pushed back. -/
theorem turn_input {ctl : Ctl} (h : (turn signed x ch ctl).2 = some c) :
    c.scan.input = x.scan.input ∨ c.scan.input = ungetc signed ch x.scan.input := by
  cases ctl with
  | blank =>
    rw [turn] at h
    split at h
    · obtain rfl := Option.some.inj h
      exact .inl rfl
    · split at h
      · obtain rfl := Option.some.inj h
        exact .inl rfl
      · exact .inl (dispatch_input h)
  | comment =>
    rw [turn] at h
    split at h
    · obtain rfl := Option.some.inj h
      exact .inl rfl
    · obtain rfl := Option.some.inj h
      exact .inl rfl
  | word b =>
    rw [turn] at h
    split at h
    · obtain rfl := Option.some.inj h
      exact .inl rfl
    · obtain rfl := Option.some.inj h
      right
      rw [Stand.passed_scan]
      unfold wordEnd
      split
      · rfl
      · split <;> rfl
  | dollar =>
    obtain rfl := Option.some.inj h
    exact .inl rfl
  | num tktype b =>
    rw [turn] at h
    split at h
    · obtain rfl := Option.some.inj h
      exact .inl rfl
    · obtain rfl := Option.some.inj h
      rw [Stand.passed_scan]
      unfold numEnd
      split
      · exact .inl rfl
      · exact .inr rfl
  | text b =>
    rw [turn] at h
    split at h
    · obtain rfl := Option.some.inj h
      exact .inl rfl
    · exact .inl (store_input h)
  | escaped b => exact .inl (store_input h)
  | returned => cases h
  | exited => cases h

/-- A property of texts that the next character and the end of the file keep. -/
theorem move_input {P : List UInt8 → Prop} (htail : ∀ c s, P (c :: s) → P s) (hnil : P [eof])
    {d : Config} (hc : P c.scan.input) (h : move signed c = some d) : P d.scan.input := by
  have hrest : P (getc c.scan.input).2 ∧ P ((getc c.scan.input).1 :: (getc c.scan.input).2) := by
    cases hs : c.scan.input with
    | nil => exact ⟨htail eof [] hnil, hnil⟩
    | cons ch s =>
      rw [hs] at hc
      exact ⟨htail ch s hc, hc⟩
  rcases turn_input h with hinput | hinput
  · rw [hinput]
    exact hrest.1
  · rw [hinput]
    unfold ungetc
    split
    · exact hrest.1
    · exact hrest.2

end Input

/-! ## Every loop of `gettoken` -/

section Loops
variable {signed : Bool} {x : Stand} {ch : UInt8} {r s : List UInt8} {line : Nat}

theorem move_eq (h : getc s = (ch, r)) (ctl : Ctl) :
    move signed ⟨x.seek s line, ctl⟩ = (turn signed (x.seek r line) ch ctl).2 := by
  have hstep : move signed ⟨x.seek s line, ctl⟩ =
      (turn signed (x.seek (getc s).2 line) (getc s).1 ctl).2 := rfl
  rw [hstep, h]

/-- What becomes of a call of `skipblank`: a character is found, or a comment never ends. -/
inductive Skipped (signed : Bool) (x : Stand) (c : Config) :
    Option (UInt8 × List UInt8 × Nat) → Prop where
  | found {s r : List UInt8} {ch : UInt8} {line : Nat} (hget : getc s = (ch, r))
      (hspace : isspace ch = false) (hhash : ch ≠ '#'.toUInt8)
      (hreach : Reaches (move signed) c ⟨x.seek s line, .blank⟩) :
      Skipped signed x c (some (ch, r, line))
  | hangs {line : Nat} (hsigned : signed = false)
      (hreach : Reaches (move signed) c ⟨x.seek [] line, .comment⟩) : Skipped signed x c none

theorem Skipped.head {c d : Config} {o : Option (UInt8 × List UInt8 × Nat)}
    (h : move signed c = some d) (hd : Skipped signed x d o) : Skipped signed x c o := by
  cases hd with
  | found hget hspace hhash hreach => exact .found hget hspace hhash (reaches_head h hreach)
  | hangs hsigned hreach => exact .hangs hsigned (reaches_head h hreach)

def skipCtl (comment : Bool) : Ctl := if comment then .comment else .blank

theorem skipped (comment : Bool) (line : Nat) (s : List UInt8) :
    Skipped signed x ⟨x.seek s line, skipCtl comment⟩ (skipblank signed comment line s) := by
  induction s generalizing comment line with
  | nil =>
    cases comment with
    | false => exact .found rfl rfl (by decide) .refl
    | true =>
      cases signed with
      | false => exact .hangs rfl .refl
      | true =>
        have hmove : move true ⟨x.seek [] line, .comment⟩ = some ⟨x.seek [] (line + 1), .blank⟩ :=
          move_eq rfl .comment
        exact .head hmove (.found rfl rfl (by decide) .refl)
  | cons c s ih =>
    have hget : getc (c :: s) = (c, s) := rfl
    cases comment with
    | false =>
      have hmove := @move_eq signed x _ _ _ line hget .blank
      rw [skipblank]
      by_cases hspace : isspace c
      · rw [if_pos hspace]
        rw [turn, if_pos hspace] at hmove
        exact .head hmove (ih false _)
      · rw [if_neg hspace]
        by_cases hhash : c = '#'.toUInt8
        · rw [if_pos hhash]
          rw [turn, if_neg hspace, if_pos hhash] at hmove
          exact .head hmove (ih true _)
        · rw [if_neg hhash]
          exact .found hget (by simpa using hspace) hhash .refl
    | true =>
      have hmove := @move_eq signed x _ _ _ line hget .comment
      rw [skipblank]
      by_cases hend : endsComment signed c
      · rw [turn, if_pos hend] at hmove
        rw [if_pos (by simpa [endsComment] using hend)]
        exact .head hmove (ih false _)
      · rw [turn, if_neg hend] at hmove
        rw [if_neg (by simpa [endsComment] using hend)]
        exact .head hmove (ih true _)

/-- A loop that stores the characters with the property `p`. -/
theorem reaches_collect {p : UInt8 → Bool} {mk : List UInt8 → Ctl}
    (hmk : ∀ b ch r s, getc s = (ch, r) → b.length < strLen → p ch = true →
      move signed ⟨x.seek s line, mk b⟩ = some ⟨x.seek r line, mk (b ++ [ch])⟩)
    {k : Nat} {pre : List UInt8} (hk : pre.length + k + 1 = strLen) (ch : UInt8) (s : List UInt8) :
    ∃ input, getc input = (collectWhile p k ch s).2 ∧
      ¬ ((pre ++ (collectWhile p k ch s).1).length < strLen ∧
        p (collectWhile p k ch s).2.1 = true) ∧
      Reaches (move signed) ⟨x.seek s line, mk (pre ++ [ch])⟩
        ⟨x.seek input line, mk (pre ++ (collectWhile p k ch s).1)⟩ := by
  induction k generalizing pre ch s with
  | zero =>
    refine ⟨s, rfl, ?_, .refl⟩
    rw [collectWhile, List.length_append, List.length_singleton]
    omega
  | succ k ih =>
    by_cases hp : p (getc s).1 = true
    · have hlen : (pre ++ [ch]).length = pre.length + 1 := by
        rw [List.length_append, List.length_singleton]
      have hcollect : collectWhile p (k + 1) ch s =
          (ch :: (collectWhile p k (getc s).1 (getc s).2).1,
            (collectWhile p k (getc s).1 (getc s).2).2) := by
        rw [collectWhile, if_pos hp]
      obtain ⟨input, hget, hend, hreach⟩ := @ih (pre ++ [ch]) (by omega) (getc s).1 (getc s).2
      have hmove := hmk (pre ++ [ch]) (getc s).1 (getc s).2 s rfl (by omega) hp
      rw [hcollect, List.append_cons pre ch (collectWhile p k (getc s).1 (getc s).2).1]
      exact ⟨input, hget, hend, reaches_head hmove hreach⟩
    · rw [collectWhile, if_neg hp]
      exact ⟨s, rfl, fun h => hp h.2, .refl⟩

/-- A character of a string, with the backslash in front of it. -/
theorem reaches_char (b s : List UInt8) :
    ∃ c, Reaches (move signed) ⟨x.seek s line, .text b⟩ c ∧
      move signed c = ((x.seek (getChar s).2 line).store b (getChar s).1).2 := by
  have hmove := @move_eq signed x (getc s).1 (getc s).2 s line rfl (.text b)
  unfold getChar
  by_cases hb : (getc s).1 = '\\'.toUInt8
  · rw [turn, if_pos hb] at hmove
    refine ⟨⟨x.seek (getc s).2 line, .escaped b⟩, reaches_single hmove, ?_⟩
    rw [if_pos hb]
    exact move_eq rfl (.escaped b)
  · rw [turn, if_neg hb] at hmove
    exact ⟨_, .refl, by rw [hmove, if_neg hb]⟩

/-- The loop over a string ends with a character that is stored too. -/
theorem reaches_textEnd {b s : List UInt8}
    (h : ¬ ((b ++ [(getChar s).1]).length < strLen ∧ isprint (getChar s).1 ∧
      (getChar s).1 ≠ '"'.toUInt8)) :
    Reaches (move signed) ⟨x.seek s line, .text b⟩
      (x.passed (textEnd (b ++ [(getChar s).1]) (x.seek (getChar s).2 line).scan)) := by
  obtain ⟨c, hreach, hmove⟩ := @reaches_char signed x line b s
  rw [Stand.store, if_neg h] at hmove
  exact reaches_trans hreach (reaches_single hmove)

/-- The loop over a string with `k + 1` places left. -/
theorem reaches_quoted {k : Nat} {pre : List UInt8} (hk : pre.length + (k + 1) = strLen)
    (s : List UInt8) :
    Reaches (move signed) ⟨x.seek s line, .text pre⟩
      (x.passed (textEnd (pre ++ (quoted (k + 1) s).1) (x.seek (quoted (k + 1) s).2 line).scan)) := by
  induction k generalizing pre s with
  | zero =>
    have hquoted : quoted 1 s = ([(getChar s).1], (getChar s).2) := by
      simp only [quoted]
      split <;> rfl
    rw [hquoted]
    apply reaches_textEnd
    rintro ⟨hlen, _⟩
    rw [List.length_append, List.length_singleton] at hlen
    omega
  | succ k ih =>
    by_cases hgo : isprint (getChar s).1 ∧ (getChar s).1 ≠ '"'.toUInt8
    · have hquoted : quoted (k + 1 + 1) s =
          ((getChar s).1 :: (quoted (k + 1) (getChar s).2).1, (quoted (k + 1) (getChar s).2).2) := by
        rw [quoted]
        simp only
        rw [if_pos (by simpa using hgo)]
      have hlen : (pre ++ [(getChar s).1]).length = pre.length + 1 := by
        rw [List.length_append, List.length_singleton]
      obtain ⟨c, hreach, hmove⟩ := @reaches_char signed x line pre s
      rw [Stand.store, if_pos ⟨by omega, hgo⟩] at hmove
      rw [hquoted, List.append_cons pre (getChar s).1 (quoted (k + 1) (getChar s).2).1]
      exact reaches_trans hreach (reaches_head hmove (ih (by omega) (getChar s).2))
    · have hquoted : quoted (k + 1 + 1) s = ([(getChar s).1], (getChar s).2) := by
        rw [quoted]
        simp only
        rw [if_neg (by simpa using hgo)]
      rw [hquoted]
      exact reaches_textEnd fun h => hgo h.2

/-! ## `gettoken` -/

/-- What becomes of a call of `gettoken`: a token, or a comment that never ends. -/
inductive Got (signed : Bool) (x : Stand) (c : Config) : Option (Token × Scan) → Prop where
  | token {r : Token × Scan} (hreach : Reaches (move signed) c (x.passed r)) :
      Got signed x c (some r)
  | hangs {line : Nat} (hsigned : signed = false)
      (hreach : Reaches (move signed) c ⟨x.seek [] line, .comment⟩) : Got signed x c none

theorem Got.of_reaches {c d : Config} {o : Option (Token × Scan)}
    (h : Reaches (move signed) c d) (hd : Got signed x d o) : Got signed x c o := by
  cases hd with
  | token hreach => exact .token (reaches_trans h hreach)
  | hangs hsigned hreach => exact .hangs hsigned (reaches_trans h hreach)

theorem wordToken_eq (ch : UInt8) (s : Scan) :
    wordToken signed ch s = wordEnd (collectWhile isWord (strLen - 1) ch s.input).1
      { s with
        input := ungetc signed (collectWhile isWord (strLen - 1) ch s.input).2.1
          (collectWhile isWord (strLen - 1) ch s.input).2.2 } := by
  have hword : isWord = fun c => isAlpha c || isdigit c := rfl
  unfold wordToken
  rw [← hword]
  generalize collectWhile isWord (strLen - 1) ch s.input = w
  rfl

theorem numhandling_eq (tktype : Int32 → Token) (ch : UInt8) (s : Scan) :
    numhandling signed tktype ch s = numEnd signed tktype
      (collectWhile isdigit (strLen - 1) ch s.input).1
      (collectWhile isdigit (strLen - 1) ch s.input).2.1
      { s with input := (collectWhile isdigit (strLen - 1) ch s.input).2.2 } := by
  unfold numhandling
  generalize collectWhile isdigit (strLen - 1) ch s.input = w
  rfl

theorem stringToken_eq (s : Scan) :
    stringToken s = textEnd (quoted strLen s.input).1
      { s with input := (quoted strLen s.input).2 } := by
  unfold stringToken
  generalize quoted strLen s.input = w
  rfl

theorem reaches_wordToken (ch : UInt8) (s : List UInt8) :
    Reaches (move signed) ⟨x.seek s line, .word [ch]⟩
      (x.passed (wordToken signed ch (x.seek s line).scan)) := by
  have hmk : ∀ b ch r s, getc s = (ch, r) → b.length < strLen → isWord ch = true →
      move signed ⟨x.seek s line, .word b⟩ = some ⟨x.seek r line, .word (b ++ [ch])⟩ := by
    intro b ch r s hget hlen hp
    rw [move_eq hget, turn, if_pos ⟨hlen, hp⟩]
    rfl
  obtain ⟨input, hget, hend, hreach⟩ := @reaches_collect signed x line isWord .word hmk
    (strLen - 1) [] rfl ch s
  have hmove := @move_eq signed x _ _ input line hget
    (.word (collectWhile isWord (strLen - 1) ch s).1)
  rw [List.nil_append] at hend
  rw [turn, if_neg hend] at hmove
  rw [wordToken_eq]
  exact reaches_trans hreach (reaches_single hmove)

theorem reaches_numhandling (tktype : Int32 → Token) (ch : UInt8) (s : List UInt8) :
    Reaches (move signed) ⟨x.seek s line, .num tktype [ch]⟩
      (x.passed (numhandling signed tktype ch (x.seek s line).scan)) := by
  have hmk : ∀ b ch r s, getc s = (ch, r) → b.length < strLen → isdigit ch = true →
      move signed ⟨x.seek s line, .num tktype b⟩ = some ⟨x.seek r line, .num tktype (b ++ [ch])⟩ := by
    intro b ch r s hget hlen hp
    rw [move_eq hget, turn, if_pos ⟨hlen, hp⟩]
    rfl
  obtain ⟨input, hget, hend, hreach⟩ := @reaches_collect signed x line isdigit (.num tktype) hmk
    (strLen - 1) [] rfl ch s
  have hmove := @move_eq signed x _ _ input line hget
    (.num tktype (collectWhile isdigit (strLen - 1) ch s).1)
  rw [List.nil_append] at hend
  rw [turn, if_neg hend] at hmove
  rw [numhandling_eq]
  exact reaches_trans hreach (reaches_single hmove)

theorem reaches_stringToken (s : List UInt8) :
    Reaches (move signed) ⟨x.seek s line, .text []⟩
      (x.passed (stringToken (x.seek s line).scan)) := by
  rw [stringToken_eq]
  exact @reaches_quoted signed x line 127 [] rfl s

theorem got_body {retry : Scan → Option (Token × Scan)}
    (hretry : ∀ r line, weight r < weight s →
      Got signed x ⟨x.seek r line, .blank⟩ (retry (x.seek r line).scan)) :
    Got signed x ⟨x.seek s line, .blank⟩ (gettokenBody signed retry (x.seek s line).scan) := by
  have hskipped := @skipped signed x false line s
  unfold gettokenBody
  change Got signed x ⟨x.seek s line, skipCtl false⟩ _
  change Skipped signed x _ (skipblank signed false (x.seek s line).scan.line
    (x.seek s line).scan.input) at hskipped
  cases hskip : skipblank signed false (x.seek s line).scan.line (x.seek s line).scan.input with
  | none =>
    rw [hskip] at hskipped
    cases hskipped with
    | hangs hsigned hreach => exact .hangs hsigned hreach
  | some y =>
    obtain ⟨ch, r, line'⟩ := y
    rw [hskip] at hskipped
    cases hskipped with
    | @found input _ _ _ hget hspace hhash hreach =>
      have hmove := @move_eq signed x _ _ _ line' hget .blank
      simp only [turn, hspace, Bool.false_eq_true, if_false, if_neg hhash, Stand.dispatch] at hmove
      refine .of_reaches hreach ?_
      change Got signed x _ (if isAlpha ch then _ else _)
      split_ifs at hmove ⊢ with halpha hdigit hpos hsemi hquote hbgn hclose hequ
      · exact .token (reaches_head hmove (reaches_wordToken ch r))
      · exact .token (reaches_head hmove (reaches_numhandling .int ch r))
      · have hdollar : move signed ⟨x.seek r line', .dollar⟩ =
            some ⟨x.seek (getc r).2 line', .num .pos [(getc r).1]⟩ := move_eq rfl .dollar
        exact .token (reaches_head hmove (reaches_head hdollar
          (reaches_numhandling .pos (getc r).1 (getc r).2)))
      · have hle : weight (ch :: r) ≤ weight s := weight_skipblank hskip
        have hne : ch ≠ eof := by
          rw [hsemi]
          decide
        rw [weight_cons hne] at hle
        exact .of_reaches (reaches_single hmove) (hretry r line' (by omega))
      · exact .token (reaches_head hmove (reaches_stringToken r))
      · exact .token (reaches_single hmove)
      · exact .token (reaches_single hmove)
      · exact .token (reaches_single hmove)
      · exact .token (reaches_single hmove)

theorem got_gettokenFrom {k : Nat} (hk : weight s ≤ k) :
    Got signed x ⟨x.seek s line, .blank⟩ (gettokenFrom signed k (x.seek s line).scan) := by
  induction k generalizing s line with
  | zero =>
    apply got_body
    intro r line' hlt
    omega
  | succ k ih =>
    apply got_body
    intro r line' hlt
    exact ih (by omega)

/-- A call of `gettoken` takes finitely many steps, unless it finds a comment that never ends. -/
theorem got_gettoken (x : Stand) : Got signed x ⟨x, .blank⟩ (gettoken signed x.scan) :=
  got_gettokenFrom List.countP_le_length

end Loops

/-! ## `readconf` -/

/-- How the program ends, or where it stays for ever. -/
inductive Outcome (signed : Bool) (c : Config) : Run Tables → Prop where
  | returns {x : Stand} (hreach : Reaches (move signed) c ⟨x, .returned⟩) :
      Outcome signed c (pure x.tables)
  | exits {x : Stand} (f : Fault) (hreach : Reaches (move signed) c ⟨x, .exited⟩) :
      Outcome signed c (throw f)
  | hangs {x : Stand} {line : Nat} (hsigned : signed = false)
      (hreach : Reaches (move signed) c ⟨x.seek [] line, .comment⟩) : Outcome signed c never

section Outcome
variable {signed : Bool} {x y : Stand} {r : Run Tables} {tkn : Token} {s : Scan}

theorem Outcome.of_reaches {c d : Config} (h : Reaches (move signed) c d)
    (hd : Outcome signed d r) : Outcome signed c r := by
  cases hd with
  | returns hreach => exact .returns (reaches_trans h hreach)
  | exits f hreach => exact .exits f (reaches_trans h hreach)
  | hangs hsigned hreach => exact .hangs hsigned (reaches_trans h hreach)

theorem reaches_passed (hg : gettoken signed x.scan = some (tkn, s)) :
    Reaches (move signed) ⟨x, .blank⟩ (x.passed (tkn, s)) := by
  have hgot := @got_gettoken signed x
  rw [hg] at hgot
  cases hgot with
  | token hreach => exact hreach

theorem passed_refused (htake : take x.tables s.str x.pos tkn = none) :
    x.passed (tkn, s) = ⟨{ x with scan := s }, { x with scan := s }.verdict tkn⟩ := by
  simp only [Stand.passed, Stand.after, htake]

theorem reaches_advance {w : Word} (h : advance signed x w = some y) :
    Reaches (move signed) ⟨x, .blank⟩ ⟨y, .blank⟩ := by
  obtain ⟨hread, htake⟩ := advance_iff.mp h
  obtain ⟨tkn, hg, rfl⟩ := reading_iff.mp hread
  have hpassed : x.passed (tkn, y.scan) = ⟨y, .blank⟩ := by
    change take x.tables y.scan.str x.pos tkn = _ at htake
    simp only [Stand.passed, Stand.after, htake]
  rw [← hpassed]
  exact reaches_passed hg

theorem verdict_of_not_ends (hends : ¬ Ends signed x) (hg : gettoken signed x.scan = some (tkn, s)) :
    { x with scan := s }.verdict tkn = .exited := by
  unfold Stand.verdict
  cases hpos : x.pos with
  | top =>
    have hok : tkn.ok = true := by
      by_contra hfalse
      exact hends (.inr ⟨hpos, tkn, s, hg, by simpa using hfalse⟩)
    simp only [hok, if_true]
  | _ => rfl

theorem Fate.outcome (h : Fate signed x r) : Outcome signed ⟨x, .blank⟩ r := by
  induction h with
  | @returns x tkn s hg hpos hok =>
    have hreach := reaches_passed hg
    have hverdict : { x with scan := s }.verdict tkn = .returned := by
      simp only [Stand.verdict, hpos, hok, Bool.false_eq_true, if_false]
    rw [passed_refused (by rw [hpos]; exact take_top hok), hverdict] at hreach
    exact @Outcome.returns signed _ { x with scan := s } hreach
  | @hangs x hg =>
    have hgot := @got_gettoken signed x
    rw [hg] at hgot
    cases hgot with
    | hangs hsigned hreach => exact .hangs hsigned hreach
  | @rejects x tkn s hg hends htake f =>
    have hreach := reaches_passed hg
    rw [passed_refused htake, verdict_of_not_ends hends hg] at hreach
    exact .exits f hreach
  | step h _ ih => exact .of_reaches (reaches_advance h) ih

/-- The program does what `readconf` does. -/
theorem readconf_outcome (signed : Bool) (content buf : List UInt8) :
    Outcome signed (opened content buf) (readconf signed (some content) buf) :=
  (readconf_fate content buf).outcome

end Outcome

end JitDt.Regexplib
