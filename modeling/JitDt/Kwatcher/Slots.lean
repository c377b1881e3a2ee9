import JitDt.Kwatcher.Publish

/-!
# The slots of kwatcher

A slot holds nothing but files of its date, at every size of the ring. `mkhist` returns it
on the call that fills its last place, except that a slot which the first file of a date
fills is not returned: that path leaves without looking. Whether two slots get the same
date depends on whether `mkhist` finds the slot that holds it.
-/

namespace JitDt.Kwatcher

set_option autoImplicit false

open Machine
open Misclib (Path HistData fnameMax)

/-- kwatcher with a ring of `nhist` slots. -/
def start (nhist : Nat) : State := ⟨.init nhist, []⟩

section Definitions
variable (cfg : Config)

/-- The slot whose address `mkhist` returns. -/
def slotReturned (s : State) (l : Label) : Option Nat :=
  (mkhist cfg s.hist l.path l.renamed).bind Result.entry

/-- Slot `q` is taken for a new date. -/
def Recreates (q : Nat) (s : State) (l : Label) : Prop :=
  ∃ s' ∈ step cfg s l, s'.hist.date q ≠ s.hist.date q

/-- The last empty place of the entry in slot `q` is filled; a new entry has only empty ones. -/
def FillsLast (q : Nat) (s : State) (l : Label) : Prop :=
  ∃ s' ∈ step cfg s l, Filled (s'.hist.history q) cfg.sync_nsize ∧
    (s'.hist.date q ≠ s.hist.date q ∨ ¬ Filled (s.hist.history q) cfg.sync_nsize)

def ReturnsFilled (s : State) (l : Label) : Prop :=
  ∀ q, slotReturned cfg s l = some q ↔ FillsLast cfg q s l

/-- Every file of a slot arrived with the date of the slot and as the type of its place. -/
def HoldsArrived (s : State) : Prop :=
  ∀ q e c, (s.hist.history q).fname e = some c → (⟨s.hist.date q, e, c⟩ : Arrival) ∈ s.arrived

/-- Between two calls that return the same slot, the slot is taken for a new date. -/
def OncePerEntry (s : State) (ls : List Label) : Prop :=
  ∀ q pre l mid l' suf t u v, ls = pre ++ l :: (mid ++ l' :: suf) →
    exec (step cfg) s pre = some t → slotReturned cfg t l = some q → step cfg t l = some u →
      exec (step cfg) u mid = some v → slotReturned cfg v l' = some q →
        ¬ Along (step cfg) (fun s l => ¬ Recreates cfg q s l) u mid

/-- What a run does to the sets of files. -/
structure SetIntegrity (s : State) (ls : List Label) : Prop where
  files : Always (step cfg) HoldsArrived s ls
  returns : Along (step cfg) (ReturnsFilled cfg) s ls
  once : OncePerEntry cfg s ls

end Definitions

section Steps
variable {cfg : Config} {s s' : State} {l : Label} {q : Nat}

theorem step_slot {a : Arrival} (ha : cfg.arrival l = some a) (h : step cfg s l = some s') :
    EnterEffect s.hist cfg.sync_nsize a.date a.entpoint a.fnam s'.hist.history
      (slotReturned cfg s l) := by
  obtain ⟨r, hr, rfl⟩ := Option.map_eq_some_iff.mp h
  obtain ⟨_, hhist, hentry⟩ := mkhist_arrival ha hr
  unfold slotReturned
  rw [hr, Option.bind_some, hhist, hentry]
  exact enter_effect

theorem slotReturned_other (ha : cfg.arrival l = none) (h : step cfg s l = some s') :
    slotReturned cfg s l = none := by
  obtain ⟨r, hr, rfl⟩ := Option.map_eq_some_iff.mp h
  unfold slotReturned
  rw [hr, Option.bind_some, (mkhist_other ha hr).2]

theorem fillsLast_iff (h : step cfg s l = some s') : FillsLast cfg q s l ↔
    Filled (s'.hist.history q) cfg.sync_nsize ∧
      (s'.hist.date q ≠ s.hist.date q ∨ ¬ Filled (s.hist.history q) cfg.sync_nsize) := by
  unfold FillsLast
  rw [h]
  simp

theorem recreates_iff (h : step cfg s l = some s') :
    Recreates cfg q s l ↔ s'.hist.date q ≠ s.hist.date q := by
  unfold Recreates
  rw [h]
  simp

/-- A slot that a step leaves alone is not filled by it. -/
theorem not_fillsLast_of_same (h : step cfg s l = some s')
    (hsame : s'.hist.history q = s.hist.history q) : ¬ FillsLast cfg q s l := by
  rw [fillsLast_iff h, History.date, History.date, hsame]
  rintro ⟨hfilled, hdate | hnot⟩
  · exact hdate rfl
  · exact hnot hfilled

theorem date_next_ne {h : History} {dt : Nat} (hnot : ¬ Found h dt) : h.date h.next ≠ dt :=
  fun hd => hnot (Or.inr (Or.inr hd.symm))

/-- A file that gets a slot of its own fills it only if there is one type. -/
theorem opened_filled_iff {h : History} {n : Nat} {arrived : List Arrival} {a : Arrival}
    (hc : Consistent n h.history arrived) (hn : a.entpoint.val < n) (q : Nat) :
    Filled (addFile { cleared (h.history q) n with date := a.date } a.entpoint a.fnam) n ↔
      n = 1 := by
  constructor
  · intro hfilled
    by_contra hne
    obtain ⟨e, he, hea⟩ : ∃ e : Fin fnameMax, e.val < n ∧ e ≠ a.entpoint := by
      by_cases h0 : a.entpoint = 0
      · refine ⟨1, ?_, by rw [h0]; decide⟩
        show 1 < n
        omega
      · refine ⟨0, ?_, fun he => h0 he.symm⟩
        show 0 < n
        omega
    have hsome := hfilled e he
    rw [opened_fname hc, if_neg hea] at hsome
    cases hsome
  · rintro rfl e he
    obtain rfl : e = a.entpoint := Fin.ext (by omega)
    rw [opened_fname hc, if_pos rfl]
    rfl

theorem not_filled_of_free {x : HistData} {n : Nat} {e : Fin fnameMax} (he : e.val < n)
    (hfree : x.fname e = none) : ¬ Filled x n := by
  intro hfilled
  have hsome := hfilled e he
  rw [hfree] at hsome
  cases hsome

/-- With more than one type, the slot returned is the one that the call completes. -/
theorem returnsFilled_arrival {a : Arrival}
    (hc : Consistent cfg.sync_nsize s.hist.history s.arrived) (ha : cfg.arrival l = some a)
    (h : step cfg s l = some s') (htypes : cfg.sync_nsize ≠ 1) : ReturnsFilled cfg s l := by
  obtain ⟨hn, _⟩ := step_arrival ha h
  have heff := step_slot ha h
  intro q
  generalize hslot : s'.hist.history = slot' at heff
  generalize hret : slotReturned cfg s l = p at heff
  cases heff with
  | multiple q' _ _ =>
    apply iff_of_false
    · simp
    · exact not_fillsLast_of_same h (congrFun hslot q)
  | filled q' _ hq' hfree =>
    by_cases hq : q = q'
    · subst hq
      have hold := not_filled_of_free hn hfree
      rw [fillsLast_iff h, hslot, Function.update_self]
      by_cases hfilled : Filled (addFile (s.hist.history q) a.entpoint a.fnam) cfg.sync_nsize
      · simp [hfilled, hold]
      · simp [hfilled]
    · apply iff_of_false
      · split
        · simpa using fun he => hq he.symm
        · simp
      · apply not_fillsLast_of_same h
        rw [hslot, Function.update_of_ne hq]
  | opened _ =>
    apply iff_of_false
    · simp
    · by_cases hq : q = s.hist.next
      · subst hq
        rw [fillsLast_iff h, hslot, Function.update_self]
        rintro ⟨hfilled, _⟩
        exact htypes ((opened_filled_iff hc hn _).mp hfilled)
      · apply not_fillsLast_of_same h
        rw [hslot, Function.update_of_ne hq]

theorem returnsFilled_other (ha : cfg.arrival l = none) (h : step cfg s l = some s') :
    ReturnsFilled cfg s l := by
  intro q
  rw [slotReturned_other ha h]
  apply iff_of_false
  · simp
  · obtain ⟨rfl, _⟩ := step_other ha h
    exact not_fillsLast_of_same h rfl

/-- With one type, the first file of all fills its slot and the slot is not returned. -/
theorem not_returnsFilled_first {a : Arrival}
    (hc : Consistent cfg.sync_nsize s.hist.history s.arrived) (ha : cfg.arrival l = some a)
    (h : step cfg s l = some s') (hpos : 1 ≤ a.date) (hblank : ∀ q, s.hist.date q = 0)
    (htypes : cfg.sync_nsize = 1) : ¬ ReturnsFilled cfg s l := by
  obtain ⟨hn, _⟩ := step_arrival ha h
  have heff := step_slot ha h
  intro hall
  have hnext := hall s.hist.next
  generalize hslot : s'.hist.history = slot' at heff
  generalize hret : slotReturned cfg s l = p at heff hnext
  have hdate : ∀ q, s.hist.date q ≠ a.date := by
    intro q hq
    rw [hblank] at hq
    omega
  cases heff with
  | multiple q' hq' _ => exact hdate q' hq'
  | filled q' _ hq' _ => exact hdate q' hq'
  | opened hnot =>
    have hfills : FillsLast cfg s.hist.next s l := by
      rw [fillsLast_iff h]
      constructor
      · rw [hslot, Function.update_self]
        exact (opened_filled_iff hc hn _).mpr htypes
      · left
        rw [History.date, hslot, Function.update_self]
        exact (date_next_ne hnot).symm
    have hsome := hnext.mpr hfills
    cases hsome

/-- A full slot stays full until it is taken for a new date. -/
theorem filled_step (h : step cfg s l = some s') (hkeep : ¬ Recreates cfg q s l)
    (hfilled : Filled (s.hist.history q) cfg.sync_nsize) :
    Filled (s'.hist.history q) cfg.sync_nsize := by
  rw [recreates_iff h, not_not] at hkeep
  cases ha : cfg.arrival l with
  | none =>
    obtain ⟨rfl, _⟩ := step_other ha h
    exact hfilled
  | some a =>
    have heff := step_slot ha h
    generalize hslot : s'.hist.history = slot' at heff
    generalize slotReturned cfg s l = p at heff
    cases heff with
    | multiple _ _ _ => exact hfilled
    | filled q' _ _ _ =>
      by_cases hq : q = q'
      · subst hq
        rw [Function.update_self]
        intro e he
        rw [addFile_fname]
        split
        · rfl
        · exact hfilled e he
      · rw [Function.update_of_ne hq]
        exact hfilled
    | opened hnot =>
      by_cases hq : q = s.hist.next
      · subst hq
        rw [History.date, hslot, Function.update_self] at hkeep
        exact absurd hkeep.symm (date_next_ne hnot)
      · rw [Function.update_of_ne hq]
        exact hfilled

/-- The slot returned was not full before the call, and is afterwards. -/
theorem slotReturned_filled (h : step cfg s l = some s') (hq : slotReturned cfg s l = some q) :
    ¬ Filled (s.hist.history q) cfg.sync_nsize ∧ Filled (s'.hist.history q) cfg.sync_nsize := by
  cases ha : cfg.arrival l with
  | none =>
    rw [slotReturned_other ha h] at hq
    cases hq
  | some a =>
    obtain ⟨hn, _⟩ := step_arrival ha h
    have heff := step_slot ha h
    rw [hq] at heff
    generalize hslot : s'.hist.history = slot' at heff
    generalize hret : some q = p at heff
    cases heff with
    | multiple _ _ _ => cases hret
    | filled q' _ _ hfree =>
      split at hret
      · rename_i hfilled
        obtain rfl := Option.some.inj hret
        refine ⟨not_filled_of_free hn hfree, ?_⟩
        rw [Function.update_self]
        exact hfilled
      · cases hret
    | opened _ => cases hret

end Steps

/-! ## Runs -/

section Runs
variable {cfg : Config} {nhist : Nat} {s t : State} {ls : List Label}

def DatesPos (s : State) : Prop := ∀ a ∈ s.arrived, 1 ≤ a.date

instance (s : State) : Decidable (DatesPos s) := inferInstanceAs (Decidable (∀ _ ∈ _, _))

theorem step_arrived {l : Label} (h : step cfg s l = some t) :
    t.arrived = s.arrived ++ (cfg.arrival l).toList := by
  obtain ⟨r, _, rfl⟩ := Option.map_eq_some_iff.mp h
  rfl

theorem DatesPos.before {l : Label} (hpos : DatesPos t) (h : step cfg s l = some t) :
    DatesPos s := by
  intro a ha
  apply hpos
  rw [step_arrived h]
  exact List.mem_append_left _ ha

theorem DatesPos.start_of_exec (hpos : DatesPos t) (h : exec (step cfg) s ls = some t) :
    DatesPos s := by
  induction ls generalizing s with
  | nil =>
    obtain rfl : s = t := by simpa using h
    exact hpos
  | cons l ls ih =>
    obtain ⟨u, hu, hut⟩ := exec_cons_iff.mp h
    exact (ih hut).before hu

theorem consistent_start (n nhist : Nat) :
    Consistent n (start nhist).hist.history (start nhist).arrived where
  blank := fun _ _ _ => rfl
  dated := fun _ h => absurd rfl h
  files := by
    intro q e c h
    cases h
  small := by simp [start]

theorem exec_consistent (h : exec (step cfg) (start nhist) ls = some s) (hpos : DatesPos s) :
    Consistent cfg.sync_nsize s.hist.history s.arrived := by
  have hinv : DatesPos s → Consistent cfg.sync_nsize s.hist.history s.arrived := by
    refine exec_invariant (I := fun s => DatesPos s →
      Consistent cfg.sync_nsize s.hist.history s.arrived) ?_ ?_ h
    · intro s l t ih hstep hpos'
      exact step_consistent (ih (hpos'.before hstep)) hpos' hstep
    · exact fun _ => consistent_start _ _
  exact hinv hpos

theorem always_holdsArrived (h : exec (step cfg) (start nhist) ls = some s) (hpos : DatesPos s) :
    Always (step cfg) HoldsArrived (start nhist) ls := by
  intro pre t hpre ht
  obtain ⟨suf, rfl⟩ := hpre
  obtain ⟨u, hu, hus⟩ := exec_append_iff.mp h
  obtain rfl : t = u := Option.some.inj (ht.symm.trans hu)
  exact (exec_consistent ht (hpos.start_of_exec hus)).files

theorem exec_oncePerEntry : OncePerEntry cfg s ls := by
  intro q pre l mid l' suf t u v _ ht hq htu hmid hq' hkeep
  have hfull := (slotReturned_filled htu hq).2
  have hfull' : Filled (v.hist.history q) cfg.sync_nsize :=
    exec_invariant_along (I := fun s => Filled (s.hist.history q) cfg.sync_nsize)
      (fun hI hC hstep => filled_step hstep hC hI) hfull hkeep hmid
  cases hw : step cfg v l' with
  | none =>
    unfold slotReturned at hq'
    unfold step at hw
    rw [Option.map_eq_none_iff.mp hw] at hq'
    cases hq'
  | some w => exact (slotReturned_filled hw hq').1 hfull'

theorem exec_returnsFilled (htypes : cfg.sync_nsize ≠ 1)
    (h : exec (step cfg) (start nhist) ls = some s) (hpos : DatesPos s) :
    Along (step cfg) (ReturnsFilled cfg) (start nhist) ls := by
  have hinv : DatesPos s → Along (step cfg) (ReturnsFilled cfg) (start nhist) ls := by
    refine exec_invariant_past (I := fun ls s => DatesPos s →
      Along (step cfg) (ReturnsFilled cfg) (start nhist) ls) (fun _ => along_nil) ?_ h
    intro ls s l t hrun ih hstep hpos'
    have hbefore := hpos'.before hstep
    rw [along_snoc_iff hrun]
    refine ⟨ih hbefore, ?_⟩
    cases ha : cfg.arrival l with
    | none => exact returnsFilled_other ha hstep
    | some a => exact returnsFilled_arrival (exec_consistent hrun hbefore) ha hstep htypes
  exact hinv hpos

/-- With one type, a run in which nothing arrives is the only one without a fault. -/
theorem exec_one_type (htypes : cfg.sync_nsize = 1)
    (h : exec (step cfg) (start nhist) ls = some s) (hpos : DatesPos s) :
    Along (step cfg) (ReturnsFilled cfg) (start nhist) ls ↔ s.arrived = [] := by
  have hinv : DatesPos s → (Along (step cfg) (ReturnsFilled cfg) (start nhist) ls ↔ s.arrived = []) ∧
      (s.arrived = [] → ∀ q, s.hist.date q = 0) := by
    refine exec_invariant_past (I := fun ls s => DatesPos s →
      (Along (step cfg) (ReturnsFilled cfg) (start nhist) ls ↔ s.arrived = []) ∧
        (s.arrived = [] → ∀ q, s.hist.date q = 0)) ?_ ?_ h
    · exact fun _ => ⟨iff_of_true along_nil rfl, fun _ _ => rfl⟩
    · intro ls s l t hrun ih hstep hpos'
      have hbefore := hpos'.before hstep
      obtain ⟨hiff, hblank⟩ := ih hbefore
      rw [along_snoc_iff hrun, hiff]
      cases ha : cfg.arrival l with
      | none =>
        obtain ⟨rfl, _⟩ := step_other ha hstep
        exact ⟨and_iff_left (returnsFilled_other ha hstep), hblank⟩
      | some a =>
        have harr := step_arrived hstep
        rw [ha] at harr
        have hmem : a ∈ t.arrived := by
          rw [harr]
          exact List.mem_append_right _ (List.mem_singleton_self a)
        have hne : t.arrived ≠ [] := List.ne_nil_of_mem hmem
        refine ⟨iff_of_false ?_ hne, fun he => absurd he hne⟩
        rintro ⟨hempty, hreturns⟩
        exact not_returnsFilled_first (exec_consistent hrun hbefore) ha hstep (hpos' a hmem)
          (hblank hempty) htypes hreturns
  exact (hinv hpos).1

/-- In every run with positive dates, whatever the size of the ring, slots hold only files
of their date, and at most once between two changes of its date a slot is returned. It is
returned exactly when its last place is filled if and only if there is not just one type,
or nothing arrived. -/
theorem set_integrity_iff (h : exec (step cfg) (start nhist) ls = some s) (hpos : DatesPos s) :
    SetIntegrity cfg (start nhist) ls ↔ (cfg.sync_nsize ≠ 1 ∨ s.arrived = []) := by
  constructor
  · intro hset
    by_cases htypes : cfg.sync_nsize = 1
    · exact Or.inr ((exec_one_type htypes h hpos).mp hset.returns)
    · exact Or.inl htypes
  · intro hcond
    refine ⟨always_holdsArrived h hpos, ?_, exec_oncePerEntry⟩
    by_cases htypes : cfg.sync_nsize = 1
    · rcases hcond with hne | hempty
      · exact absurd htypes hne
      · exact (exec_one_type htypes h hpos).mpr hempty
    · exact exec_returnsFilled htypes h hpos

theorem set_integrity_iff_two : SetIntegrity twoTypes (start 5) lateRun :=
  (@set_integrity_iff twoTypes 5 _ lateRun rfl (by decide)).mpr (Or.inl (by decide))

def oneType : Config := { twoTypes with synctype := twoTypes.synctype.take 1 }

/-- With one type, the first file completes its entry and nothing is returned. -/
theorem set_integrity_fails : ∃ s, exec (step oneType) (start 5) [fileA 1] = some s ∧
    DatesPos s ∧ FillsLast oneType 1 (start 5) (fileA 1) ∧
    returned oneType (start 5) (fileA 1) = none ∧ ¬ SetIntegrity oneType (start 5) [fileA 1] := by
  have hfills : FillsLast oneType 1 (start 5) (fileA 1) :=
    ⟨_, rfl, by decide, Or.inl (by decide)⟩
  refine ⟨_, rfl, by decide, hfills, rfl, fun hint => ?_⟩
  exact absurd ((hint.returns.1 1).mpr hfills) (by decide)

end Runs

/-! ## One slot for a date -/

/-- No two slots hold the same date; a slot never used holds none. -/
def OneSlotPerDate (s : State) : Prop :=
  ∀ q < s.hist.nhist, ∀ q' < s.hist.nhist, 0 < s.hist.date q →
    s.hist.date q = s.hist.date q' → q = q'

instance (s : State) : Decidable (OneSlotPerDate s) :=
  inferInstanceAs (Decidable (∀ q < _, ∀ q' < _, _))

/-- The date of the file is that of a slot which `mkhist` does not look at. -/
def Overlooks (cfg : Config) (s : State) (l : Label) : Prop :=
  ∃ a ∈ cfg.arrival l, 0 < a.date ∧ ¬ Found s.hist a.date ∧
    ∃ q < s.hist.nhist, s.hist.date q = a.date

instance (cfg : Config) (s : State) (l : Label) : Decidable (Overlooks cfg s l) :=
  inferInstanceAs (Decidable (∃ _ ∈ cfg.arrival l, _))

section OneSlot
variable {cfg : Config} {s t : State} {l : Label}

theorem fill_ring (h : History) (entries : Nat) (e : Fin fnameMax) (cp : Path) :
    (h.fill entries e cp).1.nhist = h.nhist ∧ (h.fill entries e cp).1.curhistp = h.curhistp ∧
      ∀ q, (h.fill entries e cp).1.date q = h.date q := by
  unfold History.fill
  simp only
  split
  · exact ⟨rfl, rfl, fun _ => rfl⟩
  · refine ⟨rfl, rfl, fun q => ?_⟩
    by_cases hq : q = h.curhistp
    · subst hq
      simp [History.date]
    · simp [History.date, hq]

/-- What a file does to the dates and the pointer: it is found a slot, or it takes the next. -/
inductive StepDates (s : State) (a : Arrival) (t : State) : Prop where
  | found (hf : Found s.hist a.date) (hcur : s.hist.date t.hist.curhistp = a.date)
      (hat : t.hist.curhistp = s.hist.curhistp ∨
        t.hist.curhistp = prev s.hist.nhist s.hist.curhistp ∨
        t.hist.curhistp = prev s.hist.nhist (prev s.hist.nhist s.hist.curhistp) ∨
        t.hist.curhistp = s.hist.next)
      (hd : ∀ q, t.hist.date q = s.hist.date q)
  | opened (hnot : ¬ Found s.hist a.date) (hcur : t.hist.curhistp = s.hist.next)
      (hself : t.hist.date s.hist.next = a.date)
      (hother : ∀ q, q ≠ s.hist.next → t.hist.date q = s.hist.date q)

theorem step_dates {a : Arrival} (ha : cfg.arrival l = some a) (h : step cfg s l = some t) :
    t.hist.nhist = s.hist.nhist ∧ StepDates s a t := by
  obtain ⟨r, hr, rfl⟩ := Option.map_eq_some_iff.mp h
  rw [(mkhist_arrival ha hr).2.1]
  by_cases hf : Found s.hist a.date
  · obtain ⟨q, hq, hat, henter⟩ := @enter_of_found _ cfg.sync_nsize _ a.entpoint a.fnam hf
    rw [henter]
    obtain ⟨hn, hcur, hd⟩ := fill_ring { s.hist with curhistp := q } cfg.sync_nsize a.entpoint a.fnam
    refine ⟨hn, .found hf ?_ ?_ hd⟩
    · show s.hist.date (History.fill _ _ _ _).1.curhistp = _
      rw [hcur]
      exact hq
    · show (History.fill _ _ _ _).1.curhistp = _ ∨ (History.fill _ _ _ _).1.curhistp = _ ∨
        (History.fill _ _ _ _).1.curhistp = _ ∨ (History.fill _ _ _ _).1.curhistp = _
      rw [hcur]
      exact hat
  · rw [enter_of_not_found hf]
    refine ⟨rfl, .opened hf rfl ?_ ?_⟩
    · simp [History.newEntry, History.date]
    · intro q hq
      simp [History.newEntry, History.date, hq]

theorem step_nhist (h : step cfg s l = some t) : t.hist.nhist = s.hist.nhist := by
  cases ha : cfg.arrival l with
  | none =>
    obtain ⟨rfl, _⟩ := step_other ha h
    rfl
  | some a => exact (step_dates ha h).1

theorem not_overlooks_of_found {a : Arrival} (ha : cfg.arrival l = some a)
    (hf : Found s.hist a.date) : ¬ Overlooks cfg s l := by
  rintro ⟨b, hb, _, hnot, _⟩
  obtain rfl : a = b := Option.some.inj (ha.symm.trans hb)
  exact hnot hf

/-- A step gives a date to a second slot exactly if `mkhist` overlooks the first one. -/
theorem oneSlot_step (hsize : 0 < s.hist.nhist) (hs : OneSlotPerDate s)
    (h : step cfg s l = some t) : OneSlotPerDate t ↔ ¬ Overlooks cfg s l := by
  have hn := step_nhist h
  have hsame : (∀ q, t.hist.date q = s.hist.date q) → OneSlotPerDate t := by
    intro hd q hq q' hq' hpos heq
    rw [hn] at hq hq'
    rw [hd] at hpos heq
    rw [hd] at heq
    exact hs q hq q' hq' hpos heq
  cases ha : cfg.arrival l with
  | none =>
    obtain ⟨rfl, _⟩ := step_other ha h
    refine iff_of_true hs ?_
    rintro ⟨a, haa, _⟩
    rw [ha] at haa
    cases haa
  | some a =>
    cases (step_dates ha h).2 with
    | found hf _ _ hd => exact iff_of_true (hsame hd) (not_overlooks_of_found ha hf)
    | opened hnot _ hself hother =>
      have hlt : s.hist.next < s.hist.nhist := Nat.mod_lt _ hsize
      constructor
      · rintro ht ⟨b, hb, hpos, _, q, hq, hqd⟩
        obtain rfl : a = b := Option.some.inj (ha.symm.trans hb)
        have hne : q ≠ s.hist.next := by
          rintro rfl
          exact date_next_ne hnot hqd
        have hdate : t.hist.date s.hist.next = t.hist.date q := by
          rw [hself, hother q hne, hqd]
        exact hne (ht _ (by omega) q (by omega) (by omega) hdate).symm
      · intro hover q hq q' hq' hpos heq
        rw [hn] at hq hq'
        by_cases h₁ : q = s.hist.next
        · by_cases h₂ : q' = s.hist.next
          · rw [h₁, h₂]
          · rw [h₁, hself] at hpos heq
            rw [hother q' h₂] at heq
            exact absurd ⟨a, ha, hpos, hnot, q', hq', heq.symm⟩ hover
        · by_cases h₂ : q' = s.hist.next
          · rw [h₂, hself, hother q h₁] at heq
            rw [hother q h₁] at hpos
            exact absurd ⟨a, ha, by omega, hnot, q, hq, heq⟩ hover
          · rw [hother q h₁] at hpos heq
            rw [hother q' h₂] at heq
            exact hs q hq q' hq' hpos heq

/-- No two slots hold the same date in any state of a run, with the ring of the array's
size, if and only if every file whose date some slot holds is found a slot. -/
theorem one_slot_per_date_iff {ls : List Label} (h : exec (step cfg) init ls = some s) :
    Always (step cfg) OneSlotPerDate init ls ↔
      Along (step cfg) (fun s l => ¬ Overlooks cfg s l) init ls := by
  refine always_iff_along (I := fun s => s.hist.nhist = maxHistory) ?_ rfl ?_ h
  · intro s l t hn hs hstep
    have hsize : 0 < s.hist.nhist := by
      rw [hn]
      decide
    exact ⟨(step_nhist hstep).trans hn, oneSlot_step hsize hs hstep⟩
  · intro q _ q' _ hpos
    exact absurd hpos (Nat.not_lt_zero _)

theorem one_slot_per_date_iff_two : Always (step twoTypes) OneSlotPerDate init twoDates :=
  (@one_slot_per_date_iff twoTypes _ twoDates rfl).mpr (by decide)

/-- The late second file of date 1 moves the ring back, and the second file of date 3
gets a slot although the first one is two slots ahead. -/
theorem two_slots_one_date : ∃ s, exec (step twoTypes) init (lateRun.take 5) = some s ∧
    DatesPos s ∧ s.hist.date 2 = 3 ∧ s.hist.date 3 = 3 ∧ ¬ OneSlotPerDate s :=
  ⟨_, rfl, by decide, by decide, by decide, by decide⟩

end OneSlot

end JitDt.Kwatcher
