import JitDt.Kwatcher.Recycle

/-!
# The indices of `history` under any history count

`main` hands whatever `atoi` makes of `-h` to the ring arithmetic. Here that arithmetic is
the one of C: `%` truncates, and an index outside the array, a modulo by zero and an
overflow end the run. For the counts from 1 to `MAX_HISTORY` it computes what `enter` does.
-/

namespace JitDt.Kwatcher

set_option autoImplicit false

open Misclib (Path HistData fnameMax)

inductive Fault where
  | index (i : Int)
  | modulo
  | overflow
deriving DecidableEq

/-- The value of an `int` expression. -/
def int (v : Int) : Except Fault Int :=
  if -2 ^ 31 ≤ v ∧ v < 2 ^ 31 then .ok v else .error .overflow

def modulo (a n : Int) : Except Fault Int := if n = 0 then .error .modulo else .ok (a.tmod n)

structure Ring where
  history : Nat → HistData
  nhist : Int
  curhistp : Int

namespace Ring

def init (nhist : Int) : Ring := ⟨fun _ => .zero, nhist, 0⟩

/-- `history[i]` -/
def entry (h : Ring) (i : Int) : Except Fault HistData :=
  if 0 ≤ i ∧ i < maxHistory then .ok (h.history i.toNat) else .error (.index i)

def store (h : Ring) (i : Int) (x : HistData) : Except Fault Ring :=
  if 0 ≤ i ∧ i < maxHistory then
    .ok { h with history := Function.update h.history i.toNat x }
  else .error (.index i)

def move (h : Ring) (p : Int) : Ring := { h with curhistp := p }

def prev (h : Ring) (p : Int) : Except Fault Int :=
  if p = 0 then int (h.nhist - 1) else modulo (p - 1) h.nhist

def next (h : Ring) : Except Fault Int := (int (h.curhistp + 1)).bind fun p => modulo p h.nhist

def fill (h : Ring) (entries : Nat) (entpoint : Fin fnameMax) (cp : Path) :
    Except Fault (Ring × Option Int × List Path) := do
  let x ← h.entry h.curhistp
  if (x.fname entpoint).isSome then return (h, none, [])
  else
    let h' ← h.store h.curhistp (addFile x entpoint cp)
    return (h', if Filled (addFile x entpoint cp) entries then some h.curhistp else none, [])

def findLate (h : Ring) (dt : Nat) : Nat → Int → Except Fault (Option Int)
  | 0, _ => return none
  | k + 1, p => do
    let q ← h.prev p
    let x ← h.entry q
    if dt = x.date then return some q else findLate h dt k q

def newEntry (h : Ring) (entries dt : Nat) (entpoint : Fin fnameMax) (cp : Path) :
    Except Fault (Ring × Option Int × List Path) := do
  let p ← h.next
  let x ← h.entry p
  if dt = x.date then (h.move p).fill entries entpoint cp
  else
    let h' ← (h.move p).store p
      (addFile { cleared x entries with date := dt } entpoint cp)
    return (h', none, removed x entries)

def late (h : Ring) (dt date : Nat) : Except Fault (Option Int) :=
  if dt < date then h.findLate dt 2 h.curhistp else return none

/-- `mkhist` from the comparison with the current date on. -/
def enter (h : Ring) (entries dt : Nat) (entpoint : Fin fnameMax) (cp : Path) :
    Except Fault (Ring × Option Int × List Path) := do
  let x ← h.entry h.curhistp
  if dt = x.date then h.fill entries entpoint cp
  else
    let late ← h.late dt x.date
    match late with
    | some q => (h.move q).fill entries entpoint cp
    | none => h.newEntry entries dt entpoint cp

/-- One call of `mkhist`; a call that does not get to the ring leaves it alone. -/
def mkhist (cfg : Config) (h : Ring) (l : Label) : Except Fault Ring :=
  match cfg.arrival l with
  | none => return h
  | some a => (h.enter cfg.sync_nsize a.date a.entpoint a.fnam).map Prod.fst

end Ring

/-- No sequence of calls faults, whatever the configuration. -/
def RingSafe (nhist : Int) : Prop :=
  ∀ (cfg : Config) (ls : List Label), ∃ h, ls.foldlM (Ring.mkhist cfg) (Ring.init nhist) = .ok h

/-! ## Counts from 1 to `MAX_HISTORY` -/

/-- The ring as the C program has it. -/
def History.toRing (h : History) : Ring := ⟨h.history, h.nhist, h.curhistp⟩

structure FitsArray (h : History) : Prop where
  pos : 0 < h.nhist
  small : h.nhist ≤ maxHistory
  cur_lt : h.curhistp < h.nhist

section Fits
variable {h : History} {entries dt : Nat} {entpoint : Fin fnameMax} {cp : Path} {p : Nat}

theorem FitsArray.move (hf : FitsArray h) {q : Nat} (hq : q < h.nhist) :
    FitsArray { h with curhistp := q } := ⟨hf.pos, hf.small, hq⟩

theorem FitsArray.next_lt (hf : FitsArray h) : h.next < h.nhist := Nat.mod_lt _ hf.pos

theorem toRing_entry (hf : FitsArray h) (hp : p < h.nhist) :
    h.toRing.entry p = .ok (h.history p) := by
  have hin : 0 ≤ (p : Int) ∧ (p : Int) < maxHistory := by
    have := hf.small
    omega
  exact if_pos hin

theorem toRing_store (hf : FitsArray h) (hp : p < h.nhist) (x : HistData) :
    h.toRing.store p x = .ok { h with history := Function.update h.history p x }.toRing := by
  have hin : 0 ≤ (p : Int) ∧ (p : Int) < maxHistory := by
    have := hf.small
    omega
  exact if_pos hin

theorem int_ok {v : Int} (h : 0 ≤ v) (h' : v ≤ maxHistory) : int v = .ok v := by
  unfold maxHistory at h'
  exact if_pos (by omega)

theorem toRing_prev (hf : FitsArray h) (p : Nat) :
    h.toRing.prev p = .ok (prev h.nhist p : Int) := by
  have hpos := hf.pos
  have hsmall := hf.small
  unfold Ring.prev prev
  by_cases h0 : p = 0
  · have hv : h.toRing.nhist - 1 = ((h.nhist - 1 : Nat) : Int) := by
      change (h.nhist : Int) - 1 = _
      omega
    rw [if_pos (by omega), if_pos h0, hv]
    exact int_ok (by omega) (by omega)
  · have hv : (p : Int) - 1 = ((p - 1 : Nat) : Int) := by omega
    have hn : h.toRing.nhist ≠ 0 := by
      change (h.nhist : Int) ≠ 0
      omega
    rw [if_neg (by omega), if_neg h0, hv]
    unfold modulo
    rw [if_neg hn]
    rfl

theorem toRing_next (hf : FitsArray h) : h.toRing.next = .ok (h.next : Int) := by
  have hpos := hf.pos
  have hsmall := hf.small
  have hcur := hf.cur_lt
  have hv : int (h.toRing.curhistp + 1) = .ok ((h.curhistp + 1 : Nat) : Int) :=
    int_ok (by change 0 ≤ (h.curhistp : Int) + 1; omega)
      (by change (h.curhistp : Int) + 1 ≤ _; omega)
  have hn : h.toRing.nhist ≠ 0 := by
    change (h.nhist : Int) ≠ 0
    omega
  unfold Ring.next
  rw [hv]
  exact if_neg hn

theorem toRing_fill (hf : FitsArray h) : h.toRing.fill entries entpoint cp =
    .ok ((h.fill entries entpoint cp).1.toRing,
      (h.fill entries entpoint cp).2.map Int.ofNat, []) := by
  have hentry : h.toRing.entry h.toRing.curhistp = .ok (h.history h.curhistp) :=
    toRing_entry hf hf.cur_lt
  have hstore := fun x => toRing_store hf hf.cur_lt x
  unfold Ring.fill History.fill
  rw [hentry]
  simp only [bind, Except.bind, pure, Except.pure]
  split
  · rfl
  · rw [show h.toRing.curhistp = (h.curhistp : Int) from rfl, hstore]
    simp only
    split <;> rfl

theorem toRing_findLate (hf : FitsArray h) (hp : p < h.nhist) (k : Nat) :
    h.toRing.findLate dt k p = .ok ((h.findLate dt k p).map Int.ofNat) := by
  induction k generalizing p with
  | zero => rfl
  | succ k ih =>
    have hq := prev_lt hf.pos p
    unfold Ring.findLate History.findLate
    rw [toRing_prev hf p]
    simp only [bind, Except.bind, toRing_entry hf hq]
    change (if dt = h.date (prev h.nhist p) then _ else _) = _
    by_cases hdt : dt = h.date (prev h.nhist p)
    · rw [if_pos hdt, if_pos hdt]
      rfl
    · rw [if_neg hdt, if_neg hdt]
      exact ih hq

theorem findLate_lt (hpos : 0 < h.nhist) {q k : Nat} (hq : h.findLate dt k p = some q) :
    q < h.nhist := by
  induction k generalizing p with
  | zero => cases hq
  | succ k ih =>
    unfold History.findLate at hq
    split at hq
    · rw [← Option.some.inj hq]
      exact prev_lt hpos p
    · exact ih hq

theorem toRing_newEntry (hf : FitsArray h) (hnext : dt ≠ h.date h.next) :
    h.toRing.newEntry entries dt entpoint cp =
      .ok (({ h with curhistp := h.next }.newEntry entries dt entpoint cp).toRing, none,
        removed (h.history h.next) entries) := by
  have hmove : h.toRing.move h.next = ({ h with curhistp := h.next } : History).toRing := rfl
  have hstore := fun x => toRing_store (hf.move hf.next_lt) hf.next_lt x
  unfold Ring.newEntry
  rw [toRing_next hf]
  simp only [bind, Except.bind, pure, Except.pure, toRing_entry hf hf.next_lt, hmove, hstore]
  exact if_neg hnext

theorem toRing_newEntry_found (hf : FitsArray h) (hnext : dt = h.date h.next) :
    h.toRing.newEntry entries dt entpoint cp =
      ({ h with curhistp := h.next } : History).toRing.fill entries entpoint cp := by
  unfold Ring.newEntry
  rw [toRing_next hf]
  simp only [bind, Except.bind, toRing_entry hf hf.next_lt]
  exact if_pos hnext

/-- Within the array the checked arithmetic computes what `enter` does. -/
theorem toRing_enter (hf : FitsArray h) : h.toRing.enter entries dt entpoint cp =
    .ok ((h.enter entries dt entpoint cp).1.toRing,
      (h.enter entries dt entpoint cp).2.1.map Int.ofNat, (h.enter entries dt entpoint cp).2.2) := by
  have hentry : h.toRing.entry h.toRing.curhistp = .ok (h.history h.curhistp) :=
    toRing_entry hf hf.cur_lt
  have hlate : h.toRing.late dt (h.history h.curhistp).date =
      .ok ((if dt < h.date h.curhistp then h.findLate dt 2 h.curhistp else none).map
        Int.ofNat) := by
    unfold Ring.late History.date
    split
    · exact toRing_findLate hf hf.cur_lt 2
    · rfl
  unfold Ring.enter History.enter
  rw [hentry]
  simp only [bind, Except.bind, hlate]
  by_cases hcur : dt = h.date h.curhistp
  · rw [if_pos (show dt = (h.history h.curhistp).date from hcur), if_pos hcur, toRing_fill hf]
  · rw [if_neg (show ¬ dt = (h.history h.curhistp).date from hcur), if_neg hcur]
    cases hq : if dt < h.date h.curhistp then h.findLate dt 2 h.curhistp else none with
    | some q =>
      have hlt : q < h.nhist := by
        split at hq
        · exact findLate_lt hf.pos hq
        · cases hq
      have hmove : h.toRing.move q = ({ h with curhistp := q } : History).toRing := rfl
      simp only [Option.map_some, Int.ofNat_eq_natCast, hmove, toRing_fill (hf.move hlt)]
    | none =>
      simp only [Option.map_none]
      by_cases hnext : dt = ({ h with curhistp := h.next } : History).date h.next
      · rw [toRing_newEntry_found hf hnext, toRing_fill (hf.move hf.next_lt), if_pos hnext]
      · rw [toRing_newEntry hf hnext, if_neg hnext]
        rfl

theorem FitsArray.enter (hf : FitsArray h) : FitsArray (h.enter entries dt entpoint cp).1 := by
  by_cases hfound : Found h dt
  · obtain ⟨q, _, hat, henter⟩ := @enter_of_found _ entries _ entpoint cp hfound
    have hq : q < h.nhist := by
      rcases hat with rfl | rfl | rfl | rfl
      · exact hf.cur_lt
      · exact prev_lt hf.pos _
      · exact prev_lt hf.pos _
      · exact hf.next_lt
    obtain ⟨hn, hcur, _⟩ := fill_ring { h with curhistp := q } entries entpoint cp
    rw [henter]
    exact ⟨hf.pos.trans_eq hn.symm, hn.trans_le hf.small, hcur.trans_lt (hq.trans_eq hn.symm)⟩
  · rw [enter_of_not_found hfound]
    exact ⟨hf.pos, hf.small, hf.next_lt⟩

theorem mkhist_fits (cfg : Config) (hf : FitsArray h) (l : Label) :
    ∃ t, h.toRing.mkhist cfg l = .ok t.toRing ∧ FitsArray t := by
  unfold Ring.mkhist
  cases cfg.arrival l with
  | none => exact ⟨h, rfl, hf⟩
  | some a =>
    refine ⟨(h.enter cfg.sync_nsize a.date a.entpoint a.fnam).1, ?_, hf.enter⟩
    simp only [toRing_enter hf]
    rfl

theorem exec_fits (cfg : Config) (hf : FitsArray h) (ls : List Label) :
    ∃ t, ls.foldlM (Ring.mkhist cfg) h.toRing = .ok t.toRing ∧ FitsArray t := by
  induction ls generalizing h with
  | nil => exact ⟨h, rfl, hf⟩
  | cons l ls ih =>
    obtain ⟨t, hstep, ht⟩ := mkhist_fits cfg hf l
    obtain ⟨u, hrun, hu⟩ := ih ht
    refine ⟨u, ?_, hu⟩
    rw [List.foldlM_cons, hstep]
    exact hrun

theorem ringSafe_of_fits {n : Nat} (hpos : 0 < n) (hsmall : n ≤ maxHistory) : RingSafe n := by
  intro cfg ls
  obtain ⟨t, hrun, _⟩ := exec_fits cfg (h := .init n) ⟨hpos, hsmall, hpos⟩ ls
  exact ⟨t.toRing, hrun⟩

end Fits

/-! ## Other counts -/

section Faults
variable {h : Ring} {entries dt : Nat} {entpoint : Fin fnameMax} {cp : Path} {p : Int}
variable {x y : HistData}

/-- A file newer than the current slot goes to the next one. -/
theorem enter_newer (hx : h.entry h.curhistp = .ok x) (hlt : x.date < dt) :
    h.enter entries dt entpoint cp = h.newEntry entries dt entpoint cp := by
  have hlate : h.late dt x.date = .ok none := if_neg (by omega)
  unfold Ring.enter
  rw [hx]
  simp only [bind, Except.bind, hlate]
  exact if_neg (by omega)

theorem newEntry_opens (hp : h.next = .ok p) (hin : 0 ≤ p ∧ p < maxHistory)
    (hne : dt ≠ (h.history p.toNat).date) :
    ∃ t r, h.newEntry entries dt entpoint cp = .ok (t, r) ∧ t.nhist = h.nhist ∧ t.curhistp = p ∧
      ∀ q, (t.history q).date = if q = p.toNat then dt else (h.history q).date := by
  have hy : h.entry p = .ok (h.history p.toNat) := if_pos hin
  have hstore : ∀ x, (h.move p).store p x =
      .ok { h.move p with history := Function.update h.history p.toNat x } := fun _ => if_pos hin
  unfold Ring.newEntry
  rw [hp]
  simp only [bind, Except.bind, pure, Except.pure, hy, hstore, if_neg hne]
  refine ⟨_, _, rfl, rfl, rfl, fun q => ?_⟩
  by_cases hq : q = p.toNat
  · subst hq
    simp [addFile]
  · rw [if_neg hq]
    exact congrArg HistData.date (Function.update_of_ne hq _ h.history)

theorem newEntry_index (hp : h.next = .ok p) (hout : ¬ (0 ≤ p ∧ p < maxHistory)) :
    h.newEntry entries dt entpoint cp = .error (.index p) := by
  have hy : h.entry p = .error (.index p) := if_neg hout
  unfold Ring.newEntry
  rw [hp]
  simp only [bind, Except.bind, hy]

/-- The search for a late file from the first slot subtracts one from the count. -/
theorem findLate_zero (hn : h.nhist < 0) (k : Nat) : ∃ e, h.findLate dt (k + 1) 0 = .error e := by
  have hprev : h.prev 0 = int (h.nhist - 1) := if_pos rfl
  unfold Ring.findLate
  rw [hprev]
  by_cases hint : -2 ^ 31 ≤ h.nhist - 1 ∧ h.nhist - 1 < 2 ^ 31
  · have hok : int (h.nhist - 1) = .ok (h.nhist - 1) := if_pos hint
    have hout : h.entry (h.nhist - 1) = .error (.index (h.nhist - 1)) := if_neg (by omega)
    simp only [bind, Except.bind, hok, hout]
    exact ⟨_, rfl⟩
  · have hover : int (h.nhist - 1) = .error .overflow := if_neg hint
    simp only [bind, Except.bind, hover]
    exact ⟨_, rfl⟩

theorem enter_late_error {e : Fault} (hx : h.entry h.curhistp = .ok x) (hlt : dt < x.date)
    (he : h.findLate dt 2 h.curhistp = .error e) :
    h.enter entries dt entpoint cp = .error e := by
  have hlate : h.late dt x.date = .error e := (if_pos hlt).trans he
  unfold Ring.enter
  rw [hx]
  simp only [bind, Except.bind, hlate]
  exact if_neg (by omega)

end Faults

theorem next_eq {h : Ring} {p : Int} (h0 : h.nhist ≠ 0) (hcur : 0 ≤ h.curhistp)
    (hsmall : h.curhistp < maxHistory) (hp : (h.curhistp + 1).tmod h.nhist = p) :
    h.next = .ok p := by
  have hint : int (h.curhistp + 1) = .ok (h.curhistp + 1) := int_ok (by omega) (by omega)
  unfold Ring.next
  rw [hint]
  exact (if_neg h0).trans (congrArg Except.ok hp)

/-- The first files of the dates from 1 to `k`. -/
def ascending (k : Nat) : List Label := (List.range k).map fun d => fileA (d + 1)

theorem arrival_fileA {d : Nat} (hd : d ≤ maxHistory) :
    ∃ a, twoTypes.arrival (fileA d) = some a ∧ a.date = d := by
  have hall : ∀ d ≤ maxHistory, (twoTypes.arrival (fileA d)).map Arrival.date = some d := by decide
  exact Option.map_eq_some_iff.mp (hall d hd)

theorem mkhist_fileA {h : Ring} {d : Nat} (hd : d ≤ maxHistory) : ∃ a : Arrival, a.date = d ∧
    h.mkhist twoTypes (fileA d) =
      (h.enter twoTypes.sync_nsize d a.entpoint a.fnam).map Prod.fst := by
  obtain ⟨a, ha, rfl⟩ := arrival_fileA hd
  refine ⟨a, rfl, ?_⟩
  unfold Ring.mkhist
  rw [ha]

/-- Before the ring wraps around, each new date takes the next index. -/
theorem ascending_run {n : Int} (hn : maxHistory < n) {k : Nat} (hk : k < maxHistory) :
    ∃ h, (ascending k).foldlM (Ring.mkhist twoTypes) (Ring.init n) = .ok h ∧ h.nhist = n ∧
      h.curhistp = k ∧ (h.history k).date = k ∧ ∀ q, k < q → (h.history q).date = 0 := by
  induction k with
  | zero => exact ⟨Ring.init n, rfl, rfl, rfl, rfl, fun _ _ => rfl⟩
  | succ k ih =>
    obtain ⟨h, hrun, hsize, hcur, hdate, hnew⟩ := ih (by omega)
    obtain ⟨a, _, hstep⟩ := mkhist_fileA (h := h) (d := k + 1) (by omega)
    have hx : h.entry h.curhistp = .ok (h.history k) := by
      rw [hcur]
      exact if_pos (by omega)
    have hnext : h.next = .ok ((k + 1 : Nat) : Int) := by
      refine next_eq (by omega) (by omega) (by omega) ?_
      rw [hsize, hcur]
      exact Int.tmod_eq_of_lt (by omega) (by omega)
    obtain ⟨t, r, hopen, hsize', hcur', hdate'⟩ := @newEntry_opens h twoTypes.sync_nsize (k + 1)
      a.entpoint a.fnam _ hnext (by omega) (by rw [hnew _ (by omega)]; omega)
    refine ⟨t, ?_, hsize'.trans hsize, hcur', ?_, ?_⟩
    · have hsnoc : ascending (k + 1) = ascending k ++ [fileA (k + 1)] := by
        simp [ascending, List.range_succ]
      rw [hsnoc, List.foldlM_append, hrun]
      simp only [bind, Except.bind, List.foldlM_cons, List.foldlM_nil, hstep]
      rw [enter_newer hx (by omega), hopen]
      rfl
    · rw [hdate', if_pos (by omega)]
    · intro q hq
      rw [hdate', if_neg (by omega)]
      exact hnew q (by omega)

/-- With a count above `MAX_HISTORY` the fifth new date goes behind the array. -/
theorem not_ringSafe_large {n : Int} (hn : maxHistory < n) : ¬ RingSafe n := by
  intro hsafe
  obtain ⟨t, ht⟩ := hsafe twoTypes (ascending 4 ++ [fileA 5])
  obtain ⟨h, hrun, hsize, hcur, hdate, _⟩ := ascending_run hn (k := 4) (by decide)
  obtain ⟨a, _, hstep⟩ := mkhist_fileA (h := h) (d := 5) (by decide)
  have hx : h.entry h.curhistp = .ok (h.history 4) := by
    rw [hcur]
    exact if_pos (by decide)
  have hmax : (maxHistory : Int) = 5 := rfl
  have hnext : h.next = .ok 5 := by
    refine next_eq (by omega) (by omega) (by omega) ?_
    rw [hsize, hcur]
    exact Int.tmod_eq_of_lt (by omega) (by omega)
  rw [List.foldlM_append, hrun] at ht
  simp only [bind, Except.bind, List.foldlM_cons, List.foldlM_nil, hstep] at ht
  rw [enter_newer hx (by omega), newEntry_index hnext (by omega)] at ht
  cases ht

/-- With a negative count the second date, a late one, sends the search below zero. -/
theorem not_ringSafe_negative {n : Int} (hn : n < 0) : ¬ RingSafe n := by
  intro hsafe
  obtain ⟨t, ht⟩ := hsafe twoTypes [fileA 2, fileA 1]
  obtain ⟨a, _, hstep⟩ := mkhist_fileA (h := Ring.init n) (d := 2) (by decide)
  obtain ⟨p, hp, hcases⟩ : ∃ p, (1 : Int).tmod n = p ∧ (p = 0 ∨ p = 1) := by
    refine ⟨_, rfl, ?_⟩
    by_cases h1 : n = -1
    · subst h1
      exact Or.inl rfl
    · refine Or.inr ?_
      rw [← Int.tmod_neg]
      exact Int.tmod_eq_of_lt (by omega) (by omega)
  have hmax : (maxHistory : Int) = 5 := rfl
  have hnext : (Ring.init n).next = .ok p :=
    next_eq (by change n ≠ 0; omega) (Int.le_refl 0) (by change (0 : Int) < 5; omega) hp
  have hx : (Ring.init n).entry (Ring.init n).curhistp = .ok .zero := rfl
  obtain ⟨h, r, hopen, hsize, hcur, hdate⟩ := @newEntry_opens (Ring.init n) twoTypes.sync_nsize 2
    a.entpoint a.fnam _ hnext (by omega) (by change 2 ≠ 0; omega)
  obtain ⟨b, _, hstep'⟩ := mkhist_fileA (h := h) (d := 1) (by decide)
  have hy : h.entry h.curhistp = .ok (h.history p.toNat) := by
    rw [hcur]
    exact if_pos (by omega)
  have hnew : (h.history p.toNat).date = 2 := by
    rw [hdate, if_pos rfl]
  have hneg : h.nhist < 0 := hsize.trans_lt hn
  obtain ⟨e, he⟩ : ∃ e, h.findLate 1 2 h.curhistp = .error e := by
    rw [hcur]
    rcases hcases with rfl | rfl
    · exact findLate_zero hneg 1
    · have hprev : h.prev 1 = .ok 0 := by
        have hzero : modulo 0 h.nhist = .ok 0 :=
          (if_neg (by omega)).trans (congrArg Except.ok (Int.zero_tmod _))
        exact hzero
      have hz : h.entry 0 = .ok (h.history 0) := rfl
      have hold : 1 ≠ (h.history 0).date := by
        rw [hdate]
        change 1 ≠ 0
        omega
      obtain ⟨e, he⟩ := @findLate_zero _ 1 hneg 0
      refine ⟨e, ?_⟩
      unfold Ring.findLate
      simp only [bind, Except.bind, hprev, hz, if_neg hold]
      exact he
  simp only [bind, Except.bind, List.foldlM_cons, List.foldlM_nil, hstep] at ht
  rw [enter_newer hx (by decide), hopen] at ht
  simp only [Except.map, hstep'] at ht
  rw [enter_late_error hy (by omega) he] at ht
  cases ht

/-- With the count zero the first new date divides by it. -/
theorem not_ringSafe_zero : ¬ RingSafe 0 := by
  intro hsafe
  obtain ⟨t, ht⟩ := hsafe twoTypes [fileA 1]
  have hfault : [fileA 1].foldlM (Ring.mkhist twoTypes) (Ring.init 0) = .error .modulo := rfl
  rw [hfault] at ht
  cases ht

/-- The ring arithmetic is safe for the counts from 1 to `MAX_HISTORY` and no others. -/
theorem ringSafe_iff (nhist : Int) : RingSafe nhist ↔ 1 ≤ nhist ∧ nhist ≤ maxHistory := by
  constructor
  · intro hsafe
    by_contra hout
    rcases lt_trichotomy nhist 0 with hneg | rfl | hpos
    · exact not_ringSafe_negative hneg hsafe
    · exact not_ringSafe_zero hsafe
    · exact not_ringSafe_large (by omega) hsafe
  · rintro ⟨hpos, hsmall⟩
    obtain ⟨n, rfl⟩ : ∃ n : Nat, nhist = n := ⟨nhist.toNat, by omega⟩
    exact ringSafe_of_fits (by omega) (by omega)

/-- `main` accepts `-h 0`, and the first file of a new date is a modulo by zero. -/
theorem ringSafe_fails : ¬ ∀ nhist : Int, -2 ^ 31 ≤ nhist → nhist < 2 ^ 31 → RingSafe nhist :=
  fun hall => not_ringSafe_zero (hall 0 (by decide) (by decide))

end JitDt.Kwatcher
