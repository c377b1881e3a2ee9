import JitDt.Regexplib.Getc

/-!
# Where reading a configuration ends

The loop over a comment looks for `EOF` in a `char`. Where `char` is unsigned it finds none, so a
comment that the file does not close with a newline is read for ever. Everything else ends.
-/

namespace JitDt.Regexplib

set_option autoImplicit false

open Kwatcher (isspace)
open Machine (exec)
open StateTransition (Reaches)
open Halting

/-- White space, semicolons and closed comments up to a comment that no newline closes; the flag
tells that a comment has begun. -/
def openComment : Bool → List UInt8 → Bool
  | comment, [] => comment
  | true, c :: s => openComment (c ≠ '\n'.toUInt8) s
  | false, c :: s =>
    if isspace c ∨ c = ';'.toUInt8 then openComment false s
    else if c = '#'.toUInt8 then openComment true s
    else false

/-! ## Calls that never return -/

theorem openComment_skipblank (comment : Bool) (line : Nat) (s : List UInt8) :
    openComment comment s = (skipblank false comment line s).elim true
      fun y => decide (y.1 = ';'.toUInt8) && openComment false y.2.1 := by
  induction s generalizing comment line with
  | nil => cases comment <;> rfl
  | cons c s ih =>
    cases comment with
    | true =>
      rw [openComment, skipblank]
      by_cases hc : c = '\n'.toUInt8
      · simp only [hc, ne_eq, not_true_eq_false, decide_false, decide_true, Bool.true_or, if_true]
        exact ih false (line + 1)
      · simp only [hc, ne_eq, not_false_eq_true, decide_true, decide_false, Bool.false_and,
          Bool.or_false, Bool.false_eq_true, if_false]
        exact ih true line
    | false =>
      rw [openComment, skipblank]
      by_cases hspace : isspace c
      · rw [if_pos (.inl hspace), if_pos hspace]
        exact ih false _
      · rw [if_neg hspace]
        by_cases hhash : c = '#'.toUInt8
        · rw [if_neg (by rw [hhash]; decide), if_pos hhash, if_pos hhash]
          exact ih true line
        · by_cases hsemi : c = ';'.toUInt8
          · rw [if_pos (.inr hsemi), if_neg hhash]
            simp [hsemi]
          · rw [if_neg (by simp [hspace, hsemi]), if_neg hhash, if_neg hhash]
            simp [hsemi]

theorem gettokenBody_isNone {retry : Scan → Option (Token × Scan)} {s : Scan}
    (hretry : ∀ t : Scan, weight t.input < weight s.input →
      (retry t).isNone = openComment false t.input) :
    (gettokenBody false retry s).isNone = openComment false s.input := by
  rw [openComment_skipblank false s.line]
  unfold gettokenBody
  cases hskip : skipblank false false s.line s.input with
  | none => rfl
  | some y =>
    obtain ⟨c, r, line⟩ := y
    simp only [Option.elim_some]
    by_cases hsemi : c = ';'.toUInt8
    · have hle := weight_skipblank hskip
      rw [hsemi, weight_cons (by decide)] at hle
      subst hsemi
      exact hretry ⟨r, line, s.str⟩ hle
    · rw [decide_eq_false hsemi, Bool.false_and, if_neg hsemi]
      split_ifs <;> rfl

theorem gettokenFrom_isNone {k : Nat} {s : Scan} (hk : weight s.input ≤ k) :
    (gettokenFrom false k s).isNone = openComment false s.input := by
  induction k generalizing s with
  | zero =>
    apply gettokenBody_isNone
    intro t hlt
    omega
  | succ k ih =>
    apply gettokenBody_isNone
    intro t hlt
    exact ih (by omega)

theorem gettoken_eq_none_iff {signed : Bool} {s : Scan} :
    gettoken signed s = none ↔ signed = false ∧ openComment false s.input = true := by
  cases signed with
  | true =>
    refine iff_of_false ?_ (by simp)
    intro hnone
    have hgot := @got_gettoken true ⟨⟨s, .zero⟩, .top⟩
    rw [hnone] at hgot
    cases hgot with
    | hangs hsigned _ => cases hsigned
  | false =>
    rw [← Option.isNone_iff_eq_none, gettoken, gettokenFrom_isNone List.countP_le_length]
    simp

/-! ## Runs that never end -/

section Runs
variable {signed : Bool} {x : Stand} {line : Nat} {content buf : List UInt8}

theorem halts_of_stop {c d : Config} (h : Reaches (move signed) c d) (hstop : move signed d = none) :
    Halts (move signed) c := halts_iff.mpr ⟨d, h, hstop⟩

/-- At the end of the file a comment goes on. -/
theorem not_halts_comment (x : Stand) (line : Nat) :
    ¬ Halts (move false) ⟨x.seek [] line, .comment⟩ := by
  apply @not_halts_of_invariant _ _ _ fun c => c = ⟨x.seek [] line, .comment⟩
  · rintro c rfl
    exact ⟨_, rfl, rfl⟩
  · rfl

theorem halts_iff_readconf :
    Halts (move signed) (opened content buf) ↔ readconf signed (some content) buf ≠ never := by
  have houtcome := readconf_outcome signed content buf
  generalize readconf signed (some content) buf = r at houtcome
  cases houtcome with
  | returns hreach => exact iff_of_true (halts_of_stop hreach rfl) nofun
  | exits f hreach => exact iff_of_true (halts_of_stop hreach rfl) nofun
  | hangs hsigned hreach =>
    subst hsigned
    refine iff_of_false ?_ (not_not_intro rfl)
    rw [halts_congr hreach]
    exact not_halts_comment _ _

theorem Fate.hanging {r : Run Tables} (h : Fate signed x r) (hr : r = never) :
    ∃ ws y, exec (advance signed) x ws = some y ∧ gettoken signed y.scan = none := by
  induction h with
  | returns => cases hr
  | @hangs x hg => exact ⟨[], x, rfl, hg⟩
  | rejects => cases hr
  | @step x y w r h _ ih =>
    obtain ⟨ws, z, hz, hnone⟩ := ih hr
    exact ⟨w :: ws, z, Machine.exec_cons_iff.mpr ⟨y, h, hz⟩, hnone⟩

theorem reaches_exec {y : Stand} {ws : List Word} (h : exec (advance signed) x ws = some y) :
    Reaches (move signed) ⟨x, .blank⟩ ⟨y, .blank⟩ := by
  induction ws generalizing x with
  | nil =>
    obtain rfl : x = y := by simpa using h
    exact .refl
  | cons w ws ih =>
    obtain ⟨z, hz, hrest⟩ := Machine.exec_cons_iff.mp h
    exact reaches_trans (reaches_advance hz) (ih hrest)

/-- A call of `gettoken` that does not return keeps the whole program from ending. -/
theorem not_halts_of_gettoken (h : gettoken signed x.scan = none) :
    ¬ Halts (move signed) ⟨x, .blank⟩ := by
  have hgot := @got_gettoken signed x
  rw [h] at hgot
  cases hgot with
  | hangs hsigned hreach =>
    subst hsigned
    rw [halts_congr hreach]
    exact not_halts_comment _ _

end Runs

/-! ## Which files are read to the end -/

/-- Every `#` has a newline behind it. -/
def closedComments : List UInt8 → Bool
  | [] => true
  | c :: s => (c ≠ '#'.toUInt8 || s.contains '\n'.toUInt8) && closedComments s

theorem openComment_of_closed {s : List UInt8} (h : closedComments s = true) :
    openComment false s = false ∧ ('\n'.toUInt8 ∈ s → openComment true s = false) := by
  induction s with
  | nil => exact ⟨rfl, nofun⟩
  | cons c s ih =>
    simp only [closedComments, Bool.and_eq_true, Bool.or_eq_true, decide_eq_true_eq,
      List.contains_iff_mem] at h
    obtain ⟨hblank, hcomment⟩ := ih h.2
    constructor
    · rw [openComment]
      split
      · exact hblank
      · split
        · exact hcomment (h.1.resolve_left (not_not_intro ‹_›))
        · rfl
    · intro hmem
      rw [openComment]
      by_cases hc : c = '\n'.toUInt8
      · simpa [hc] using hblank
      · have htail : '\n'.toUInt8 ∈ s := (List.mem_cons.mp hmem).resolve_left (Ne.symm hc)
        simpa [hc] using hcomment htail

/-- A file in which every `#` has a newline behind it is read to the end, whatever `char` is. -/
theorem halts_of_closed {signed : Bool} {content : List UInt8} (h : closedComments content = true)
    (buf : List UInt8) : Halts (move signed) (opened content buf) := by
  rw [halts_iff_readconf]
  intro hnever
  obtain ⟨ws, y, hy, hnone⟩ := (@readconf_fate signed content buf).hanging hnever
  have htail : ∀ c s, closedComments (c :: s) = true → closedComments s = true := by
    intro c s hcs
    rw [closedComments, Bool.and_eq_true] at hcs
    exact hcs.2
  have hstep : ∀ {c d : Config}, closedComments c.scan.input = true → move signed c = some d →
      closedComments d.scan.input = true := fun hc hmove =>
    move_input (P := fun s => closedComments s = true) htail rfl hc hmove
  have hclosed : closedComments y.scan.input = true :=
    @reaches_invariant _ _ _ _ (fun c => closedComments c.scan.input = true) hstep h
      (reaches_exec hy)
  have hopen := (gettoken_eq_none_iff.mp hnone).2
  rw [(openComment_of_closed hclosed).1] at hopen
  cases hopen

/-- Reading ends if `char` is signed, or if `gettoken` is never called in front of a comment that
stays open. -/
theorem readconf_halts_iff (signed : Bool) (content buf : List UInt8) :
    Halts (move signed) (opened content buf) ↔ signed = true ∨
      ∀ ws y, exec (advance signed) (start content buf) ws = some y →
        openComment false y.scan.input = false := by
  constructor
  · intro hhalts
    cases signed with
    | true => exact .inl rfl
    | false =>
      refine .inr fun ws y hy => ?_
      by_contra hopen
      have hnone : gettoken false y.scan = none :=
        gettoken_eq_none_iff.mpr ⟨rfl, by simpa using hopen⟩
      rw [opened, halts_congr (reaches_exec hy)] at hhalts
      exact not_halts_of_gettoken hnone hhalts
  · intro hcond
    rw [halts_iff_readconf]
    intro hnever
    obtain ⟨ws, y, hy, hnone⟩ := (@readconf_fate signed content buf).hanging hnever
    obtain ⟨hsigned, hopen⟩ := gettoken_eq_none_iff.mp hnone
    rcases hcond with htrue | hclosed
    · rw [hsigned] at htrue
      cases htrue
    · rw [hclosed ws y hy] at hopen
      cases hopen

/-- A file of one comment without a newline, read where `char` is unsigned. -/
theorem readconf_hangs : ¬ Halts (move false) (opened ['#'.toUInt8] []) :=
  not_halts_of_gettoken (by decide)

end JitDt.Regexplib
