import JitDt.Regexplib.Grammar

/-!
# The tests of `readconf`

The tests as a machine over the words of the file. `readconf` is followed token by token: it
returns where the machine meets an error between two blocks, and exits with a message where the
machine refuses a token.
-/

namespace JitDt.Regexplib

set_option autoImplicit false

open Kwatcher (isspace)
open Machine (exec exec_cons_iff exec_append_iff exec_comparable exec_unique_of_stuck Along Determined)

/-! ## `gettoken` consumes the file

An end of the file may be pushed back as a byte 255, so these do not count. -/

def weight (s : List UInt8) : Nat := s.countP (· ≠ eof)

theorem weight_cons_le (c : UInt8) (s : List UInt8) : weight s ≤ weight (c :: s) :=
  (List.sublist_cons_self c s).countP_le

theorem weight_cons {c : UInt8} (h : c ≠ eof) (s : List UInt8) : weight (c :: s) = weight s + 1 := by
  unfold weight
  rw [List.countP_cons_of_pos (by simpa using h)]

theorem weight_getc (s : List UInt8) : weight ((getc s).1 :: (getc s).2) = weight s := by
  cases s with
  | nil => rfl
  | cons c s => rfl

theorem weight_getc_le (s : List UInt8) : weight (getc s).2 ≤ weight s :=
  (weight_cons_le _ _).trans (weight_getc s).le

section Weights
variable {signed : Bool}

theorem weight_ungetc (c : UInt8) (s : List UInt8) : weight (ungetc signed c s) ≤ weight (c :: s) := by
  unfold ungetc
  split
  · exact weight_cons_le c s
  · exact le_rfl

theorem weight_collectWhile (p : UInt8 → Bool) (k : Nat) (c : UInt8) (s : List UInt8) :
    weight ((collectWhile p k c s).2.1 :: (collectWhile p k c s).2.2) ≤ weight s := by
  induction k generalizing c s with
  | zero => exact (weight_getc s).le
  | succ k ih =>
    unfold collectWhile
    split
    · exact (ih _ _).trans (weight_getc_le s)
    · exact (weight_getc s).le

theorem weight_getChar (s : List UInt8) : weight (getChar s).2 ≤ weight s := by
  unfold getChar
  split
  · exact (weight_getc_le _).trans (weight_getc_le s)
  · exact weight_getc_le s

theorem weight_quoted (k : Nat) (s : List UInt8) : weight (quoted k s).2 ≤ weight s := by
  induction k generalizing s with
  | zero => exact le_rfl
  | succ k ih =>
    simp only [quoted]
    split
    · exact (ih _).trans (weight_getChar s)
    · exact weight_getChar s

theorem weight_skipblank {comment : Bool} {line line' : Nat} {s r : List UInt8} {c : UInt8}
    (h : skipblank signed comment line s = some (c, r, line')) : weight (c :: r) ≤ weight s := by
  induction s generalizing comment line with
  | nil =>
    cases comment with
    | false =>
      simp only [skipblank, Option.some.injEq, Prod.mk.injEq] at h
      obtain ⟨rfl, rfl, _⟩ := h
      exact le_rfl
    | true =>
      cases signed with
      | false => cases h
      | true =>
        simp only [skipblank, if_true, Option.some.injEq, Prod.mk.injEq] at h
        obtain ⟨rfl, rfl, _⟩ := h
        exact le_rfl
  | cons d s ih =>
    cases comment with
    | false =>
      rw [skipblank] at h
      by_cases hspace : isspace d
      · rw [if_pos hspace] at h
        exact (ih h).trans (weight_cons_le d s)
      · rw [if_neg hspace] at h
        by_cases hhash : d = '#'.toUInt8
        · rw [if_pos hhash] at h
          exact (ih h).trans (weight_cons_le d s)
        · rw [if_neg hhash, Option.some.injEq, Prod.mk.injEq, Prod.mk.injEq] at h
          obtain ⟨rfl, rfl, _⟩ := h
          exact le_rfl
    | true =>
      rw [skipblank] at h
      split_ifs at h with hend
      · exact (ih h).trans (weight_cons_le d s)
      · exact (ih h).trans (weight_cons_le d s)

theorem weight_wordToken (c : UInt8) (s : Scan) :
    weight (wordToken signed c s).2.input ≤ weight s.input := by
  have hcollect := weight_collectWhile (fun c => isAlpha c || isdigit c) (strLen - 1) c s.input
  have hle := (@weight_ungetc signed _ _).trans hcollect
  unfold wordToken
  simp only
  split
  · exact hle
  · split <;> exact hle

theorem weight_numhandling (f : Int32 → Token) (c : UInt8) (s : Scan) :
    weight (numhandling signed f c s).2.input ≤ weight s.input := by
  have hcollect := weight_collectWhile isdigit (strLen - 1) c s.input
  unfold numhandling
  simp only
  split
  · exact (weight_cons_le _ _).trans hcollect
  · exact (weight_ungetc _ _).trans hcollect

theorem weight_stringToken (s : Scan) : weight (stringToken s).2.input ≤ weight s.input := by
  have hquoted := weight_quoted strLen s.input
  unfold stringToken
  simp only
  split <;> exact hquoted

theorem wordToken_str {c : UInt8} {s : Scan} (h : (wordToken signed c s).1 ≠ .str) :
    (wordToken signed c s).2.str = s.str := by
  unfold wordToken at h ⊢
  simp only at h ⊢
  split at h
  · rw [if_pos ‹_›]
  · rw [if_neg ‹_›]
    split at h
    · rfl
    · exact absurd rfl h

theorem numhandling_str (f : Int32 → Token) (c : UInt8) (s : Scan) :
    (numhandling signed f c s).2.str = s.str := by
  unfold numhandling
  simp only
  split <;> rfl

theorem stringToken_str {s : Scan} (h : (stringToken s).1 ≠ .str) :
    (stringToken s).2.str = s.str := by
  unfold stringToken at h ⊢
  simp only at h ⊢
  split at h
  · rw [if_pos ‹_›]
  · exact absurd rfl h

/-- A token consumes a byte, an error consumes nothing that was not there, and only a string
token writes to the buffer. -/
structure Consumes (s : Scan) (x : Token × Scan) : Prop where
  le : weight x.2.input ≤ weight s.input
  lt : x.1.ok = true → weight x.2.input < weight s.input
  str : x.1 ≠ .str → x.2.str = s.str

theorem Consumes.of_lt {s : Scan} {x : Token × Scan} (h : weight x.2.input < weight s.input)
    (hstr : x.1 ≠ .str → x.2.str = s.str) : Consumes s x := ⟨h.le, fun _ => h, hstr⟩

theorem gettokenBody_consumes {retry : Scan → Option (Token × Scan)} {s : Scan} {x : Token × Scan}
    (hretry : ∀ t, weight t.input < weight s.input → retry t = some x → Consumes t x)
    (h : gettokenBody signed retry s = some x) : Consumes s x := by
  unfold gettokenBody at h
  cases hskip : skipblank signed false s.line s.input with
  | none =>
    rw [hskip] at h
    cases h
  | some y =>
    obtain ⟨c, input, line⟩ := y
    rw [hskip] at h
    have hw := weight_skipblank hskip
    have hlt : c ≠ eof → weight input < weight s.input := by
      intro hc
      rw [weight_cons hc] at hw
      omega
    simp only at h
    split_ifs at h with halpha hdigit hpos hsemi hquote hbgn hclose hequ
    · obtain rfl := Option.some.inj h
      have hc : c ≠ eof := by
        rintro rfl
        exact absurd halpha (by decide)
      exact .of_lt ((weight_wordToken c ⟨input, line, s.str⟩).trans_lt (hlt hc)) wordToken_str
    · obtain rfl := Option.some.inj h
      have hc : c ≠ eof := by
        rintro rfl
        exact absurd hdigit (by decide)
      exact .of_lt ((weight_numhandling .int c ⟨input, line, s.str⟩).trans_lt (hlt hc))
        fun _ => numhandling_str _ _ _
    · obtain rfl := Option.some.inj h
      have hc : c ≠ eof := by
        rintro rfl
        exact absurd hpos (by decide)
      exact .of_lt (((weight_numhandling .pos _ ⟨_, line, s.str⟩).trans
        (weight_getc_le input)).trans_lt (hlt hc)) fun _ => numhandling_str _ _ _
    · have hc : c ≠ eof := by
        rintro rfl
        exact absurd hsemi (by decide)
      have hrest := hretry ⟨input, line, s.str⟩ (hlt hc) h
      exact .of_lt (hrest.le.trans_lt (hlt hc)) hrest.str
    · obtain rfl := Option.some.inj h
      have hc : c ≠ eof := by
        rintro rfl
        exact absurd hquote (by decide)
      exact .of_lt ((weight_stringToken ⟨input, line, s.str⟩).trans_lt (hlt hc)) stringToken_str
    all_goals obtain rfl := Option.some.inj h
    · subst hbgn
      exact .of_lt (hlt (by decide)) fun _ => rfl
    · subst hclose
      exact .of_lt (hlt (by decide)) fun _ => rfl
    · subst hequ
      exact .of_lt (hlt (by decide)) fun _ => rfl
    · exact ⟨(weight_cons_le c input).trans hw, nofun, fun _ => rfl⟩

theorem gettokenFrom_consumes {k : Nat} {s : Scan} {x : Token × Scan}
    (h : gettokenFrom signed k s = some x) : Consumes s x := by
  induction k generalizing s with
  | zero => exact gettokenBody_consumes (fun _ _ h => by cases h) h
  | succ k ih => exact gettokenBody_consumes (fun _ _ h => ih h) h

theorem gettoken_consumes {s : Scan} {x : Token × Scan} (h : gettoken signed s = some x) :
    Consumes s x := gettokenFrom_consumes h

end Weights

/-- How a result is found by evaluation. -/
theorem exists_of_any {E A : Type} {r : Option (Except E A)} {p : A → Bool}
    (h : (r.any fun x => x.toOption.any p) = true) : ∃ a, r = some (.ok a) ∧ p a = true := by
  cases r with
  | none => cases h
  | some x =>
    cases x with
    | error e => cases h
    | ok a => exact ⟨a, rfl, h⟩

/-! ## The tests on the tokens -/

/-- What `readconf` waits for. After the first token of a pair it knows whether that token was
right, and in a list of items whether there was one. The items of a `sync` block have no member. -/
inductive Pos where
  | top
  | region
  | brace (named : Bool)
  | sync
  | items (any : Bool)
  | types (any : Bool)
  | equ (m : Option Member)
  | value (m : Option Member) (eq : Bool)

structure Stand extends Parser where
  pos : Pos

def Key.member : Key → Option Member
  | .pattern => some .pattern
  | .date => some .date
  | .type => some .type
  | .fname => some .fnam
  | .threshold => some .thrh
  | _ => none

/-- The tables and the place behind a token; `none` if a test fails or no token is accepted. -/
def take (t : Tables) (buf : List UInt8) : Pos → Token → Option (Pos × Tables)
  | .top, tkn =>
    match tkn with
    | .key .region => if maxConf ≤ t.cent then none else some (.region, t)
    | .key .sync => some (.sync, t)
    | _ => none
  | .region, tkn => some (.brace (tkn = .str), t)
  | .brace named, tkn =>
    if named = false ∧ tkn ≠ .bgn then none else some (.items false, t.setArea buf)
  | .sync, tkn => if tkn ≠ .bgn then none else some (.types false, t)
  | .items _, tkn =>
    if tkn.ok then
      match tkn with
      | .close => some (.top, t.endRegion)
      | .key k => k.member.map fun m => (.equ (some m), t)
      | _ => none
    else some (.top, t)
  | .types _, tkn =>
    if tkn.ok then
      match tkn with
      | .close => some (.top, t)
      | .key .type => some (.equ none, t)
      | _ => none
    else some (.top, t)
  | .equ m, tkn => some (.value m (tkn = .equ), t)
  | .value (some m) eq, tkn =>
    if eq = false ∧ tkn ≠ .str then none else some (.items true, t.setMember buf m)
  | .value none eq, tkn =>
    if eq = false ∧ tkn ≠ .str then none
    else if maxSyncfiles ≤ t.sent then none
    else some (.types true, t.addSync buf)

/-- What a token that is accepted leads to. -/
inductive Taken (t : Tables) (buf : List UInt8) : Pos → Token → Pos → Tables → Prop where
  | region (hroom : ¬ maxConf ≤ t.cent) : Taken t buf .top (.key .region) .region t
  | name (tkn : Token) : Taken t buf .region tkn (.brace (tkn = .str)) t
  | brace {named : Bool} {tkn : Token} (hpair : ¬ (named = false ∧ tkn ≠ .bgn)) :
      Taken t buf (.brace named) tkn (.items false) (t.setArea buf)
  | item {any : Bool} {k : Key} {m : Member} (hm : k.member = some m) :
      Taken t buf (.items any) (.key k) (.equ (some m)) t
  | endRegion {any : Bool} : Taken t buf (.items any) .close .top t.endRegion
  | leaveRegion {any : Bool} {tkn : Token} (hok : tkn.ok = false) :
      Taken t buf (.items any) tkn .top t
  | sync : Taken t buf .top (.key .sync) .sync t
  | syncBrace : Taken t buf .sync .bgn (.types false) t
  | type {any : Bool} : Taken t buf (.types any) (.key .type) (.equ none) t
  | endSync {any : Bool} : Taken t buf (.types any) .close .top t
  | leaveSync {any : Bool} {tkn : Token} (hok : tkn.ok = false) : Taken t buf (.types any) tkn .top t
  | equ {m : Option Member} (tkn : Token) : Taken t buf (.equ m) tkn (.value m (tkn = .equ)) t
  | value {m : Member} {eq : Bool} {tkn : Token} (hpair : ¬ (eq = false ∧ tkn ≠ .str)) :
      Taken t buf (.value (some m) eq) tkn (.items true) (t.setMember buf m)
  | typeValue {eq : Bool} {tkn : Token} (hpair : ¬ (eq = false ∧ tkn ≠ .str))
      (hroom : ¬ maxSyncfiles ≤ t.sent) :
      Taken t buf (.value none eq) tkn (.types true) (t.addSync buf)

theorem take_cases {t t' : Tables} {buf : List UInt8} {pos pos' : Pos} {tkn : Token}
    (h : take t buf pos tkn = some (pos', t')) : Taken t buf pos tkn pos' t' := by
  cases pos with
  | top =>
    cases tkn with
    | key k =>
      cases k with
      | region =>
        rcases ite_eq_iff.mp h with ⟨_, h⟩ | ⟨hroom, h⟩
        · cases h
        · cases h
          exact .region hroom
      | sync =>
        cases h
        exact .sync
      | _ => cases h
    | _ => cases h
  | region =>
    cases h
    exact .name tkn
  | brace named =>
    rcases ite_eq_iff.mp h with ⟨_, h⟩ | ⟨hpair, h⟩
    · cases h
    · cases h
      exact .brace hpair
  | sync =>
    rcases ite_eq_iff.mp h with ⟨_, h⟩ | ⟨hbgn, h⟩
    · cases h
    · cases h
      rw [not_not.mp hbgn]
      exact .syncBrace
  | items any =>
    rcases ite_eq_iff.mp h with ⟨_, h⟩ | ⟨hok, h⟩
    · cases tkn with
      | close =>
        cases h
        exact .endRegion
      | key k =>
        obtain ⟨m, hm, heq⟩ := Option.map_eq_some_iff.mp h
        cases heq
        exact .item hm
      | _ => cases h
    · cases h
      exact .leaveRegion (by simpa using hok)
  | types any =>
    rcases ite_eq_iff.mp h with ⟨_, h⟩ | ⟨hok, h⟩
    · cases tkn with
      | close =>
        cases h
        exact .endSync
      | key k =>
        cases k with
        | type =>
          cases h
          exact .type
        | _ => cases h
      | _ => cases h
    · cases h
      exact .leaveSync (by simpa using hok)
  | equ m =>
    cases h
    exact .equ tkn
  | value m eq =>
    cases m with
    | some m =>
      rcases ite_eq_iff.mp h with ⟨_, h⟩ | ⟨hpair, h⟩
      · cases h
      · cases h
        exact .value hpair
    | none =>
      rcases ite_eq_iff.mp h with ⟨_, h⟩ | ⟨hpair, h⟩
      · cases h
      · rcases ite_eq_iff.mp h with ⟨_, h⟩ | ⟨hroom, h⟩
        · cases h
        · cases h
          exact .typeValue hpair hroom

section Running
variable (signed : Bool)

def start (content buf : List UInt8) : Stand := ⟨⟨⟨content, 1, buf⟩, .zero⟩, .top⟩

def advance (x : Stand) (w : Word) : Option Stand :=
  (reading signed x.scan w).bind fun s =>
    (take x.tables s.str x.pos w.1).map fun y => ⟨⟨s, y.2⟩, y.1⟩

/-- `gettoken` never returns, or fails between two blocks. -/
def Ends (x : Stand) : Prop :=
  gettoken signed x.scan = none ∨
    (x.pos = .top ∧ ∃ tkn s, gettoken signed x.scan = some (tkn, s) ∧ tkn.ok = false)

end Running

section Steps
variable {signed : Bool} {x y : Stand} {w : Word} {ws : List Word}

theorem advance_iff : advance signed x w = some y ↔ reading signed x.scan w = some y.scan ∧
    take x.tables y.scan.str x.pos w.1 = some (y.pos, y.tables) := by
  unfold advance
  rw [Option.bind_eq_some_iff]
  constructor
  · rintro ⟨s, hread, htake⟩
    obtain ⟨z, hz, rfl⟩ := Option.map_eq_some_iff.mp htake
    exact ⟨hread, hz⟩
  · rintro ⟨hread, htake⟩
    exact ⟨y.scan, hread, Option.map_eq_some_iff.mpr ⟨(y.pos, y.tables), htake, rfl⟩⟩

theorem advance_determined : Determined (advance signed) := by
  intro x v w y z hv hw
  exact reading_determined signed _ _ _ _ _ (advance_iff.mp hv).1 (advance_iff.mp hw).1

theorem exec_reading (h : exec (advance signed) x ws = some y) :
    exec (reading signed) x.scan ws = some y.scan := by
  induction ws generalizing x with
  | nil =>
    obtain rfl : x = y := by simpa [exec] using h
    rfl
  | cons w ws ih =>
    obtain ⟨z, hz, hrest⟩ := exec_cons_iff.mp h
    exact exec_cons_iff.mpr ⟨z.scan, (advance_iff.mp hz).1, ih hrest⟩

/-- Where the next token is refused the run cannot go on. -/
theorem stuck_of_take {tkn : Token} {s : Scan} (hg : gettoken signed x.scan = some (tkn, s))
    (htake : take x.tables s.str x.pos tkn = none) (w : Word) : advance signed x w = none := by
  cases h : advance signed x w with
  | none => rfl
  | some y =>
    obtain ⟨hread, htake'⟩ := advance_iff.mp h
    obtain ⟨tkn', hg', rfl⟩ := reading_iff.mp hread
    rw [hg, Option.some.injEq, Prod.mk.injEq] at hg'
    obtain ⟨rfl, rfl⟩ := hg'
    simp only [word, htake] at htake'
    cases htake'

theorem take_top {t : Tables} {buf : List UInt8} {tkn : Token} (h : tkn.ok = false) :
    take t buf .top tkn = none := by
  cases tkn <;> first | rfl | cases h

theorem Ends.stuck (h : Ends signed x) (w : Word) : advance signed x w = none := by
  rcases h with hnone | ⟨hpos, tkn, s, hg, hok⟩
  · cases hw : advance signed x w with
    | none => rfl
    | some y =>
      obtain ⟨tkn, hg, _⟩ := reading_iff.mp (advance_iff.mp hw).1
      rw [hnone] at hg
      cases hg
  · apply stuck_of_take hg
    rw [hpos]
    exact take_top hok

end Steps

/-! ## What becomes of a run -/

/-- How the rest of `readconf` ends if the tokens are read from here on. -/
inductive Fate (signed : Bool) : Stand → Run Tables → Prop where
  | returns {x : Stand} {tkn : Token} {s : Scan} (hg : gettoken signed x.scan = some (tkn, s))
      (hpos : x.pos = .top) (hok : tkn.ok = false) : Fate signed x (pure x.tables)
  | hangs {x : Stand} (hg : gettoken signed x.scan = none) : Fate signed x never
  | rejects {x : Stand} {tkn : Token} {s : Scan} (hg : gettoken signed x.scan = some (tkn, s))
      (hends : ¬ Ends signed x) (htake : take x.tables s.str x.pos tkn = none) (f : Fault) :
      Fate signed x (throw f)
  | step {x y : Stand} {w : Word} {r : Run Tables} (h : advance signed x w = some y)
      (hr : Fate signed y r) : Fate signed x r

section Outcome
variable {signed : Bool} {x : Stand} {r : Run Tables} {cont : Parser → Run Tables} {m k n : Nat}
variable {p : Parser}

theorem Fate.run (h : Fate signed x r) : ∃ ws y, exec (advance signed) x ws = some y ∧
    (Ends signed y ∧ (r = pure y.tables ∨ r = never) ∨
      (∀ w, advance signed y w = none) ∧ ¬ Ends signed y ∧ ∃ f, r = throw f) := by
  induction h with
  | @returns x tkn s hg hpos hok =>
    exact ⟨[], x, rfl, .inl ⟨.inr ⟨hpos, tkn, s, hg, hok⟩, .inl rfl⟩⟩
  | @hangs x hg => exact ⟨[], x, rfl, .inl ⟨.inl hg, .inr rfl⟩⟩
  | @rejects x tkn s hg hends htake f =>
    exact ⟨[], x, rfl, .inr ⟨stuck_of_take hg htake, hends, f, rfl⟩⟩
  | @step x y w r h _ ih =>
    obtain ⟨ws, z, hz, hcases⟩ := ih
    exact ⟨w :: ws, z, exec_cons_iff.mpr ⟨y, h, hz⟩, hcases⟩

/-- What the parser does with a token is what the tests do with it. -/
inductive Turn (signed : Bool) (t : Tables) (pos : Pos) (tkn : Token) (s : Scan) :
    Run Tables → Prop where
  | goto {pos' : Pos} {t' : Tables} {r : Run Tables} (htake : take t s.str pos tkn = some (pos', t'))
      (hr : Fate signed ⟨⟨s, t'⟩, pos'⟩ r) : Turn signed t pos tkn s r
  | refuse {r : Run Tables} (e : Fault) (htake : take t s.str pos tkn = none)
      (hends : pos ≠ .top ∨ tkn.ok = true) (hr : r = throw e) : Turn signed t pos tkn s r
  | done {r : Run Tables} (hpos : pos = .top) (hok : tkn.ok = false) (hr : r = pure t) :
      Turn signed t pos tkn s r

theorem fate_next {f : Token × Parser → Run Tables}
    (h : ∀ tkn s, Consumes x.scan (tkn, s) → Turn signed x.tables x.pos tkn s (f (tkn, ⟨s, x.tables⟩))) :
    Fate signed x (next signed x.toParser >>= f) := by
  cases hg : gettoken signed x.scan with
  | none =>
    have hnever : next signed x.toParser >>= f = never := by
      unfold next
      rw [hg]
      rfl
    rw [hnever]
    exact .hangs hg
  | some y =>
    obtain ⟨tkn, s⟩ := y
    have hbind : next signed x.toParser >>= f = f (tkn, ⟨s, x.tables⟩) := by
      unfold next
      rw [hg]
      rfl
    rw [hbind]
    cases h tkn s (gettoken_consumes hg) with
    | @goto pos t _ htake hr =>
      have hstep : advance signed x (word tkn s.str) = some ⟨⟨s, t⟩, pos⟩ :=
        advance_iff.mpr ⟨reading_iff.mpr ⟨tkn, hg, rfl⟩, htake⟩
      exact .step hstep hr
    | refuse e htake hends hr =>
      rw [hr]
      refine .rejects hg ?_ htake e
      rintro (hg' | ⟨hpos, tkn', s', hg', hok⟩)
      · rw [hg] at hg'
        cases hg'
      · rw [hg, Option.some.injEq, Prod.mk.injEq] at hg'
        rcases hends with hne | htrue
        · exact hne hpos
        · rw [hg'.1, hok] at htrue
          cases htrue
    | done hpos hok hr =>
      rw [hr]
      exact .returns hg hpos hok

/-- Two tokens of which one must be right; `store` is what follows the test. -/
def pair (signed : Bool) (a b : Token) (store : Parser → Run Tables) (p : Parser) : Run Tables :=
  next signed p >>= fun x => next signed x.2 >>= fun y =>
    if x.1 ≠ a ∧ y.1 ≠ b then y.2.err1 else store y.2

theorem fate_pair {a b : Token} {first : Pos} {second : Bool → Pos} {store : Parser → Run Tables}
    (hfirst : ∀ t buf tkn, take t buf first tkn = some (second (tkn = a), t))
    (hpos : ∀ eq, second eq ≠ .top)
    (hsecond : ∀ t buf eq tkn, eq = false ∧ tkn ≠ b → take t buf (second eq) tkn = none)
    (hstore : ∀ s eq tkn, weight s.input ≤ weight p.scan.input → ¬ (eq = false ∧ tkn ≠ b) →
      Turn signed p.tables (second eq) tkn s (store ⟨s, p.tables⟩)) :
    Fate signed ⟨p, first⟩ (pair signed a b store p) := by
  apply @fate_next signed ⟨p, first⟩
  intro tkn s hc
  apply Turn.goto (hfirst _ _ _)
  apply @fate_next signed ⟨⟨s, p.tables⟩, second (tkn = a)⟩
  intro ntkn s' hc'
  by_cases hwrong : tkn ≠ a ∧ ntkn ≠ b
  · apply Turn.refuse (.err1 s'.line)
    · apply hsecond
      exact ⟨by simpa using hwrong.1, hwrong.2⟩
    · exact .inl (hpos _)
    · simp only [if_pos hwrong]
      rfl
  · simp only [if_neg hwrong]
    exact hstore s' (tkn = a) ntkn (hc'.le.trans hc.le) (by simpa using hwrong)

theorem parse_keystring_bind (mem : Member) : parse_keystring signed mem p >>= cont =
    pair signed .equ .str (fun q => cont { q with tables := q.tables.setMember q.scan.str mem }) p := by
  unfold parse_keystring pair
  rw [bind_assoc]
  refine bind_congr fun x => ?_
  rw [bind_assoc]
  refine bind_congr fun y => ?_
  by_cases h : x.1 ≠ .equ ∧ y.1 ≠ .str
  · simp only [if_pos h]
    rfl
  · simp only [if_neg h, pure_bind]

theorem syncItem_bind : syncItem signed p >>= cont = pair signed .equ .str (fun q =>
    if maxSyncfiles ≤ q.tables.sent then q.err2
    else cont { q with tables := q.tables.addSync q.scan.str }) p := by
  unfold syncItem pair
  rw [bind_assoc]
  refine bind_congr fun x => ?_
  rw [bind_assoc]
  refine bind_congr fun y => ?_
  by_cases h : x.1 ≠ .equ ∧ y.1 ≠ .str
  · simp only [if_pos h]
    rfl
  · by_cases hfull : maxSyncfiles ≤ y.2.tables.sent
    · simp only [if_neg h, if_pos hfull]
      rfl
    · simp only [if_neg h, if_neg hfull, pure_bind]

/-- An item, and behind it the rest of the list. -/
theorem parse_keystring_fate (mem : Member)
    (hcont : ∀ q : Parser, weight q.scan.input ≤ weight p.scan.input →
      Fate signed ⟨q, .items true⟩ (cont q)) :
    Fate signed ⟨p, .equ (some mem)⟩ (parse_keystring signed mem p >>= cont) := by
  rw [parse_keystring_bind]
  apply fate_pair
  · intro t buf tkn
    rfl
  · intro eq
    nofun
  · intro t buf eq tkn h
    exact if_pos h
  · intro s eq tkn hle h
    exact .goto (if_neg h) (hcont _ hle)

theorem syncItem_fate
    (hcont : ∀ q : Parser, weight q.scan.input ≤ weight p.scan.input →
      Fate signed ⟨q, .types true⟩ (cont q)) :
    Fate signed ⟨p, .equ none⟩ (syncItem signed p >>= cont) := by
  rw [syncItem_bind]
  apply fate_pair
  · intro t buf tkn
    rfl
  · intro eq
    nofun
  · intro t buf eq tkn h
    exact if_pos h
  · intro s eq tkn hle h
    by_cases hfull : maxSyncfiles ≤ p.tables.sent
    · apply Turn.refuse (.err2 s.line)
      · simp only [take, if_neg h, if_pos hfull]
      · exact .inl nofun
      · exact if_pos hfull
    · have htake : take p.tables s.str (.value none eq) tkn =
          some (.types true, p.tables.addSync s.str) := by
        simp only [take, if_neg h, if_neg hfull]
      simp only [if_neg hfull]
      exact .goto htake (hcont _ hle)

theorem regionItems_fate (hcont : ∀ q : Parser, weight q.scan.input ≤ m → Fate signed ⟨q, .top⟩ (cont q))
    {any : Bool} (hm : weight p.scan.input ≤ m) (hk : weight p.scan.input < k) :
    Fate signed ⟨p, .items any⟩ (regionItems signed k p >>= cont) := by
  induction k generalizing p any with
  | zero => exact absurd hk (Nat.not_lt_zero _)
  | succ k ih =>
    unfold regionItems
    rw [bind_assoc]
    have hne : Pos.items any ≠ .top := by
      intro h
      cases h
    apply @fate_next signed ⟨p, .items any⟩
    intro tkn s hc
    have hs : weight s.input ≤ m := hc.le.trans hm
    cases tkn with
    | errLen => exact .goto rfl (hcont ⟨s, p.tables⟩ hs)
    | errChr => exact .goto rfl (hcont ⟨s, p.tables⟩ hs)
    | int val => exact .refuse (.err1 s.line) rfl (.inl hne) rfl
    | pos val => exact .refuse (.err1 s.line) rfl (.inl hne) rfl
    | str => exact .refuse (.err1 s.line) rfl (.inl hne) rfl
    | bgn => exact .refuse (.err1 s.line) rfl (.inl hne) rfl
    | close => exact .goto rfl (hcont ⟨s, p.tables.endRegion⟩ hs)
    | equ => exact .refuse (.err1 s.line) rfl (.inl hne) rfl
    | key key =>
      have hrest : ∀ mem, Fate signed ⟨⟨s, p.tables⟩, .equ (some mem)⟩
          ((parse_keystring signed mem ⟨s, p.tables⟩ >>= regionItems signed k) >>= cont) := by
        intro mem
        rw [bind_assoc]
        apply parse_keystring_fate
        intro q (hq : weight q.scan.input ≤ weight s.input)
        have hlt : weight s.input < weight p.scan.input := hc.lt rfl
        exact ih (hq.trans hs) (by omega)
      cases key with
      | region => exact .refuse (.err1 s.line) rfl (.inl hne) rfl
      | sync => exact .refuse (.err1 s.line) rfl (.inl hne) rfl
      | fname => exact .goto rfl (hrest .fnam)
      | pattern => exact .goto rfl (hrest .pattern)
      | date => exact .goto rfl (hrest .date)
      | type => exact .goto rfl (hrest .type)
      | threshold => exact .goto rfl (hrest .thrh)

theorem syncItems_fate (hcont : ∀ q : Parser, weight q.scan.input ≤ m → Fate signed ⟨q, .top⟩ (cont q))
    {any : Bool} (hm : weight p.scan.input ≤ m) (hk : weight p.scan.input < k) :
    Fate signed ⟨p, .types any⟩ (syncItems signed k p >>= cont) := by
  induction k generalizing p any with
  | zero => exact absurd hk (Nat.not_lt_zero _)
  | succ k ih =>
    unfold syncItems
    rw [bind_assoc]
    have hne : Pos.types any ≠ .top := by
      intro h
      cases h
    apply @fate_next signed ⟨p, .types any⟩
    intro tkn s hc
    have hs : weight s.input ≤ m := hc.le.trans hm
    cases tkn with
    | errLen => exact .goto rfl (hcont ⟨s, p.tables⟩ hs)
    | errChr => exact .goto rfl (hcont ⟨s, p.tables⟩ hs)
    | int val => exact .refuse (.err1 s.line) rfl (.inl hne) rfl
    | pos val => exact .refuse (.err1 s.line) rfl (.inl hne) rfl
    | str => exact .refuse (.err1 s.line) rfl (.inl hne) rfl
    | bgn => exact .refuse (.err1 s.line) rfl (.inl hne) rfl
    | close => exact .goto rfl (hcont ⟨s, p.tables⟩ hs)
    | equ => exact .refuse (.err1 s.line) rfl (.inl hne) rfl
    | key key =>
      by_cases htype : key = .type
      · subst htype
        apply Turn.goto rfl
        simp only [Token.ok, if_true]
        rw [bind_assoc]
        apply syncItem_fate
        intro q (hq : weight q.scan.input ≤ weight s.input)
        have hlt : weight s.input < weight p.scan.input := hc.lt rfl
        exact ih (hq.trans hs) (by omega)
      · cases key with
        | type => exact absurd rfl htype
        | _ => exact .refuse (.err1 s.line) rfl (.inl hne) rfl

theorem regionBlock_bind : regionBlock signed n p >>= cont =
    if maxConf ≤ p.tables.cent then p.err2
    else pair signed .str .bgn (fun q =>
      regionItems signed n { q with tables := q.tables.setArea q.scan.str } >>= cont) p := by
  unfold regionBlock pair
  split
  · rfl
  · rw [bind_assoc]
    refine bind_congr fun x => ?_
    rw [bind_assoc]
    refine bind_congr fun y => ?_
    by_cases h : x.1 ≠ .str ∧ y.1 ≠ .bgn
    · simp only [if_pos h]
      rfl
    · simp only [if_neg h]

theorem regionBlock_fate
    (hcont : ∀ q : Parser, weight q.scan.input ≤ m → Fate signed ⟨q, .top⟩ (cont q))
    (hroom : ¬ maxConf ≤ p.tables.cent) (hm : weight p.scan.input ≤ m)
    (hn : weight p.scan.input < n) :
    Fate signed ⟨p, .region⟩ (regionBlock signed n p >>= cont) := by
  rw [regionBlock_bind, if_neg hroom]
  apply fate_pair
  · intro t buf tkn
    rfl
  · intro eq
    nofun
  · intro t buf eq tkn h
    exact if_pos h
  · intro s eq tkn hle h
    exact .goto (if_neg h) (regionItems_fate hcont (hle.trans hm) (hle.trans_lt hn))

theorem syncBlock_fate
    (hcont : ∀ q : Parser, weight q.scan.input ≤ m → Fate signed ⟨q, .top⟩ (cont q))
    (hm : weight p.scan.input ≤ m) (hn : weight p.scan.input < n) :
    Fate signed ⟨p, .sync⟩ (syncBlock signed n p >>= cont) := by
  unfold syncBlock
  rw [bind_assoc]
  apply @fate_next signed ⟨p, .sync⟩
  intro tkn s hc
  by_cases hbgn : tkn ≠ .bgn
  · apply Turn.refuse (.err1 s.line)
    · simp only [take, if_pos hbgn]
    · exact .inl nofun
    · simp only [if_pos hbgn]
      rfl
  · obtain rfl : tkn = .bgn := not_not.mp hbgn
    exact .goto rfl (syncItems_fate hcont (hc.le.trans hm) (hc.le.trans_lt hn))

theorem blocks_fate (hn : weight p.scan.input < n) (hk : weight p.scan.input < k) :
    Fate signed ⟨p, .top⟩ (blocks signed n k p >>= fun q => pure q.tables) := by
  induction k generalizing p with
  | zero => exact absurd hk (Nat.not_lt_zero _)
  | succ k ih =>
    unfold blocks
    rw [bind_assoc]
    apply @fate_next signed ⟨p, .top⟩
    intro tkn s hc
    have hcont : ∀ j ≤ weight s.input, tkn.ok = true → ∀ q : Parser, weight q.scan.input ≤ j →
        Fate signed ⟨q, .top⟩ (blocks signed n k q >>= fun q => pure q.tables) := by
      intro j hj hok q hq
      have hlt := hc.lt hok
      have hle : weight q.scan.input ≤ weight s.input := hq.trans hj
      have hlt' : weight s.input < weight p.scan.input := hlt
      exact ih (by omega) (by omega)
    have hns : weight s.input < n := hc.le.trans_lt hn
    cases tkn with
    | errLen => exact .done rfl rfl rfl
    | errChr => exact .done rfl rfl rfl
    | int val => exact .refuse (.err1 s.line) rfl (.inr rfl) rfl
    | pos val => exact .refuse (.err1 s.line) rfl (.inr rfl) rfl
    | str => exact .refuse (.err1 s.line) rfl (.inr rfl) rfl
    | bgn => exact .refuse (.err1 s.line) rfl (.inr rfl) rfl
    | close => exact .refuse (.err1 s.line) rfl (.inr rfl) rfl
    | equ => exact .refuse (.err1 s.line) rfl (.inr rfl) rfl
    | key key =>
      cases key with
      | region =>
        simp only [Token.ok, if_true, bind_assoc]
        by_cases hroom : maxConf ≤ p.tables.cent
        · apply Turn.refuse (.err2 s.line)
          · exact if_pos hroom
          · exact .inr rfl
          · simp only [regionBlock_bind, if_pos hroom]
            rfl
        · exact .goto (if_neg hroom) (regionBlock_fate (hcont _ le_rfl rfl) hroom le_rfl hns)
      | sync =>
        simp only [Token.ok, if_true, bind_assoc]
        exact .goto rfl (syncBlock_fate (hcont _ le_rfl rfl) le_rfl hns)
      | _ => exact .refuse (.err1 s.line) rfl (.inr rfl) rfl

theorem weight_lt (s : List UInt8) : weight s < s.length + 1 :=
  Nat.lt_succ_of_le List.countP_le_length

theorem readconf_fate (content buf : List UInt8) :
    Fate signed (start content buf) (readconf signed (some content) buf) :=
  blocks_fate (weight_lt content) (weight_lt content)

end Outcome

end JitDt.Regexplib
