import JitDt.Kwatcher.Reader

/-!
# The sets that clients obtain

kwatcher gathers files by date and publishes the entries that are complete, through the two lock
files, to any number of clients. A list of names that a client obtains in the end is the complete
set of one date, and a date is obtained once.
-/

namespace JitDt.Kwatcher

set_option autoImplicit false

open Machine
open Misclib (Path HistData fnameMax)

/-- One file name for each synchronised type, in their order, of files that arrived with date
`d`. -/
def SetOf (cfg : Config) (arrived : List Arrival) (d : Nat) (names : List Path) : Prop :=
  names.length = cfg.sync_nsize ∧ ∀ e : Fin fnameMax, e.val < cfg.sync_nsize →
    ∃ a ∈ arrived, a.date = d ∧ a.entpoint = e ∧ names[e.val]? = some a.fnam

section Entries
variable {cfg : Config} {arrived : List Arrival} {d : Nat} {x : HistData} {names : List Path}

theorem SetOf.append (h : SetOf cfg arrived d names) (more : List Arrival) :
    SetOf cfg (arrived ++ more) d names := by
  refine ⟨h.1, fun e he => ?_⟩
  obtain ⟨a, ha, hrest⟩ := h.2 e he
  exact ⟨a, List.mem_append_left _ ha, hrest⟩

theorem SetOf.allArrived (h : SetOf cfg arrived d names) : AllArrived cfg arrived d := by
  intro e he
  obtain ⟨a, ha, hd, he', _⟩ := h.2 e he
  exact ⟨a, ha, hd, he'⟩

/-- The names of an entry with all its files. -/
theorem setNames_of_filled {n : Nat} (hn : n ≤ fnameMax) (hfilled : Filled x n) :
    (setNames n x).length = n ∧
      ∀ e : Fin fnameMax, e.val < n → (setNames n x)[e.val]? = x.fname e := by
  have htypes : List.finRange fnameMax = [0, 1, 2] := rfl
  have hget : ∀ e : Fin fnameMax, e.val < n → ∃ p, x.fname e = some p := fun e he =>
    Option.isSome_iff_exists.mp (hfilled e he)
  unfold setNames
  rw [htypes]
  -- at most three types
  obtain rfl | rfl | rfl | rfl : n = 0 ∨ n = 1 ∨ n = 2 ∨ n = 3 := by
    unfold fnameMax at hn
    omega
  · exact ⟨rfl, fun e he => absurd he (Nat.not_lt_zero _)⟩
  · obtain ⟨p, hp⟩ := hget 0 (by decide)
    refine ⟨by simp [hp], fun e he => ?_⟩
    fin_cases e <;> simp_all
  · obtain ⟨p, hp⟩ := hget 0 (by decide)
    obtain ⟨q, hq⟩ := hget 1 (by decide)
    refine ⟨by simp [hp, hq], fun e he => ?_⟩
    fin_cases e <;> simp_all
  · obtain ⟨p, hp⟩ := hget 0 (by decide)
    obtain ⟨q, hq⟩ := hget 1 (by decide)
    obtain ⟨r, hr⟩ := hget 2 (by decide)
    refine ⟨by simp [hp, hq, hr], fun e he => ?_⟩
    fin_cases e
    · simp [hp, hq, hr]
    · simp [hp, hq, hr]
    · show _ = x.fname 2
      simp [hp, hq, hr]

theorem CompleteEntry.setOf (hn : cfg.sync_nsize ≤ fnameMax) (h : CompleteEntry cfg arrived d x) :
    SetOf cfg arrived d (setNames cfg.sync_nsize x) := by
  have hfilled : Filled x cfg.sync_nsize := by
    intro e he
    obtain ⟨a, _, _, _, hname⟩ := h.2 e he
    rw [hname]
    rfl
  obtain ⟨hlen, hget⟩ := setNames_of_filled hn hfilled
  refine ⟨hlen, fun e he => ?_⟩
  obtain ⟨a, ha, hd, hent, hname⟩ := h.2 e he
  exact ⟨a, ha, hd, hent, (hget e he).trans hname⟩

end Entries

/-! ## One step -/

section Step
variable {cfg : Config} {s s' : State} {l : Label} {x : HistData}

theorem arrival_types {a : Arrival} (ha : cfg.arrival l = some a) : cfg.sync_nsize ≤ fnameMax := by
  unfold Config.arrival at ha
  split at ha
  · cases ha
  · split at ha
    · cases ha
    · split at ha
      · split at ha
        · assumption
        · cases ha
      · cases ha

/-- An entry is returned by the arrival of its last file. -/
theorem returned_complete (hc : Consistent cfg.sync_nsize s.hist.history s.arrived)
    (ho : EachOnce s'.arrived) (h : step cfg s l = some s') (hx : returned cfg s l = some x) :
    CompleteEntry cfg s'.arrived x.date x ∧ ¬ AllArrived cfg s.arrived x.date ∧
      cfg.sync_nsize ≤ fnameMax := by
  cases ha : cfg.arrival l with
  | none =>
    rw [(step_other ha h).2] at hx
    cases hx
  | some a =>
    have hc' := step_consistent hc ho.pos h
    obtain ⟨hn, harr, p, hret, heff⟩ := step_arrival ha h
    rw [hret] at hx
    obtain ⟨q, rfl, hq⟩ := Option.map_eq_some_iff.mp hx
    rw [harr] at ho
    obtain ⟨hdate, hfilled⟩ : x.date = a.date ∧ Filled x cfg.sync_nsize := by
      generalize hslot : s'.hist.history = slot at heff hq
      generalize hp : some q = p at heff
      cases heff with
      | multiple => cases hp
      | filled q' _ hq' _ =>
        split at hp
        · rename_i hfilled
          obtain rfl := Option.some.inj hp
          rw [Function.update_self] at hq
          rw [← hq]
          exact ⟨hq', hfilled⟩
        · cases hp
      | opened => cases hp
    refine ⟨⟨rfl, fun e he => ?_⟩, ?_, arrival_types ha⟩
    · obtain ⟨c, hfile⟩ := Option.isSome_iff_exists.mp (hfilled e he)
      rw [← hq] at hfile ⊢
      exact ⟨_, hc'.files q e c hfile, rfl, rfl, hfile⟩
    · intro hall
      obtain ⟨b, hb, hbd, hbe⟩ := hall a.entpoint hn
      exact ho.last_new hb (hbd.trans hdate) hbe

end Step

/-! ## Runs -/

section Runs
variable {cfg : Config} {s t : System} {e : Event} {es : List Event}

/-- The publications are the sets of `dates`, and so is what `mkhist` has returned. -/
structure Published (cfg : Config) (s : System) (dates : List Nat) : Prop where
  consistent : Consistent cfg.sync_nsize s.kw.hist.history s.kw.arrived
  sets : List.Forall₂ (SetOf cfg s.kw.arrived) dates s.lock.published
  pending : ∀ x, s.pending = some x →
    SetOf cfg s.kw.arrived x.date (setNames cfg.sync_nsize x) ∧ x.date ∉ dates
  nodup : dates.Nodup

theorem published_init (content : Bool → List UInt8) : Published cfg (System.init content) [] where
  consistent := consistent_init _
  sets := .nil
  pending := fun x hx => by cases hx
  nodup := .nil

theorem Published.arrive {dates : List Nat} (h : Published cfg s dates) {l : Label} {kw : State}
    (ho : EachOnce kw.arrived) (hstep : step cfg s.kw l = some kw) :
    Published cfg { s with kw := kw, pending := returned cfg s.kw l } dates := by
  have harr := step_arrived hstep
  refine ⟨step_consistent h.consistent ho.pos hstep, ?_, ?_, h.nodup⟩
  · rw [harr]
    exact h.sets.imp fun d names hset => hset.append _
  · intro x hx
    obtain ⟨hcomplete, hmissing, hn⟩ := returned_complete h.consistent ho hstep hx
    refine ⟨hcomplete.setOf hn, fun hmem => hmissing ?_⟩
    obtain ⟨i, hi, hget⟩ := List.getElem_of_mem hmem
    have hlen := h.sets.length_eq
    have hset := (List.forall₂_iff_get.mp h.sets).2 i hi (by omega)
    simp only [List.get_eq_getElem, hget] at hset
    exact hset.allArrived

theorem Published.step {dates : List Nat} (h : Published cfg s dates) (ho : EachOnce t.kw.arrived)
    (hstep : s.step cfg e = some t) : ∃ dates', Published cfg t dates' := by
  cases e with
  | arrive l =>
    obtain ⟨kw, hkw, rfl⟩ := step_arrive hstep
    exact ⟨dates, h.arrive ho hkw⟩
  | publish =>
    obtain ⟨f, x, _, hx, lock, hlock, rfl⟩ := step_publish hstep
    obtain ⟨hset, hnew⟩ := h.pending x hx
    cases Lockfile.step_cases hlock with
    | write _ g _ _ =>
      refine ⟨dates ++ [x.date], h.consistent, ?_, by simp, ?_⟩
      · exact List.rel_append h.sets (.cons hset .nil)
      · exact List.nodup_append.mpr ⟨h.nodup, List.nodup_singleton _, by
          rintro d hd _ hd' rfl
          exact hnew (List.mem_singleton.mp hd' ▸ hd)⟩
  | lockStep l =>
    obtain ⟨lock, hlock, hl, rfl⟩ := step_lockStep hstep
    refine ⟨dates, h.consistent, ?_, h.pending, h.nodup⟩
    rcases Lockfile.step_published hlock with hsame | ⟨names, rfl, _⟩
    · simp only [hsame]
      exact h.sets
    · exact absurd rfl (hl names)

theorem System.arrived_before (h : s.step cfg e = some t) (ho : EachOnce t.kw.arrived) :
    EachOnce s.kw.arrived := by
  cases e with
  | arrive l =>
    obtain ⟨kw, hkw, rfl⟩ := step_arrive h
    have harr : kw.arrived = s.kw.arrived ++ (cfg.arrival l).toList := step_arrived hkw
    have ho' : EachOnce kw.arrived := ho
    rw [harr] at ho'
    cases ha : cfg.arrival l with
    | none => simpa [ha] using ho'
    | some a =>
      rw [ha] at ho'
      exact EachOnce.init ho'
  | publish =>
    obtain ⟨_, _, _, _, _, _, rfl⟩ := step_publish h
    exact ho
  | lockStep l =>
    obtain ⟨_, _, _, rfl⟩ := step_lockStep h
    exact ho

theorem exec_published {content : Bool → List UInt8} (ho : EachOnce s.kw.arrived)
    (hrun : exec (System.step cfg) (System.init content) es = some s) :
    ∃ dates, Published cfg s dates := by
  induction es using List.reverseRecOn generalizing s with
  | nil =>
    obtain rfl : System.init content = s := by simpa using hrun
    exact ⟨[], published_init content⟩
  | append_singleton es e ih =>
    obtain ⟨u, hu, hstep⟩ := exec_snoc_iff.mp hrun
    obtain ⟨dates, h⟩ := ih (System.arrived_before hstep ho) hu
    exact h.step ho hstep

/-- The lock files of a run are those of a run of kwatcher's locked writes and the clients. -/
theorem exec_lockfile {content : Bool → List UInt8}
    (hrun : exec (System.step cfg) (System.init content) es = some s) :
    ∃ ls, exec Lockfile.step (Lockfile.init content) ls = some s.lock := by
  refine exec_invariant (I := fun s : System =>
    ∃ ls, exec Lockfile.step (Lockfile.init content) ls = some s.lock) ?_ ⟨[], rfl⟩ hrun
  rintro s e t ⟨ls, hls⟩ hstep
  cases e with
  | arrive l =>
    obtain ⟨kw, _, rfl⟩ := step_arrive hstep
    exact ⟨ls, hls⟩
  | publish =>
    obtain ⟨f, x, _, _, lock, hlock, rfl⟩ := step_publish hstep
    exact ⟨_, exec_snoc_iff.mpr ⟨s.lock, hls, hlock⟩⟩
  | lockStep l =>
    obtain ⟨lock, hlock, _, rfl⟩ := step_lockStep hstep
    exact ⟨_, exec_snoc_iff.mpr ⟨s.lock, hls, hlock⟩⟩

theorem SetOf.mem {arrived : List Arrival} {d : Nat} {names : List Path} {n : Path}
    (h : SetOf cfg arrived d names) (hfit : Lockfile.FitsTables names) (hn : n ∈ names) :
    ∃ a ∈ arrived, a.fnam = n := by
  obtain ⟨i, hi, rfl⟩ := List.getElem_of_mem hn
  obtain ⟨a, ha, _, _, hname⟩ := h.2 ⟨i, hi.trans_le hfit.2.1⟩ (h.1 ▸ hi)
  refine ⟨a, ha, ?_⟩
  rw [List.getElem?_eq_getElem hi] at hname
  exact (Option.some.inj hname).symm

/-- What the clients have obtained are publications, none of them twice. -/
theorem Published.delivered {content : Bool → List UInt8} {dates : List Nat}
    (h : Published cfg s dates) (hblank : ∀ f, Lockfile.Blank (content f))
    (hclean : ∀ a ∈ s.kw.arrived, Lockfile.Clean a.fnam)
    (hrun : exec (System.step cfg) (System.init content) es = some s) :
    ∃ sets : List (Nat × List Path), (sets.map Prod.fst).Nodup ∧
      s.lock.delivered = sets.map (fun p => p.2.map CStr.bytes) ∧
      ∀ p ∈ sets, SetOf cfg s.kw.arrived p.1 p.2 := by
  obtain ⟨ls, hls⟩ := exec_lockfile hrun
  obtain ⟨m, hm⟩ := Lockfile.exec_refines hblank hls
  have hlen : dates.length = s.lock.published.length := h.sets.length_eq
  have hlt : ∀ k ∈ m.taken, k < s.lock.published.length := fun k hk => hm.sent ▸ m.taken_lt k hk
  have hset : ∀ k (hk : k < s.lock.published.length),
      SetOf cfg s.kw.arrived (dates.getD k 0) s.lock.published[k] := by
    intro k hk
    have hk' : k < dates.length := by omega
    have := (List.forall₂_iff_get.mp h.sets).2 k hk' hk
    simpa [List.getD_eq_getElem, hk'] using this
  refine ⟨m.taken.map fun k => (dates.getD k 0, s.lock.published.getD k []), ?_, ?_, ?_⟩
  · -- no publication is obtained twice, and no date is published twice
    rw [List.map_map]
    refine List.Nodup.map_on (fun j hj k hk heq => ?_) m.nodup
    have hj' : j < dates.length := hlen ▸ hlt j hj
    have hk' : k < dates.length := hlen ▸ hlt k hk
    simp only [Function.comp_apply, List.getD_eq_getElem _ _ hj', List.getD_eq_getElem _ _ hk'] at heq
    exact (List.Nodup.getElem_inj_iff h.nodup).mp heq
  · unfold Lockfile.State.delivered
    rw [hm.obtained, List.map_map]
    refine List.map_congr_left fun k hk => ?_
    have hk' := hlt k hk
    have hfit := hm.fits _ (List.getElem_mem hk')
    have hread := Lockfile.readBack_clean hfit fun n hn => by
      obtain ⟨a, ha, rfl⟩ := (hset k hk').mem hfit hn
      exact hclean a ha
    simp [Lockfile.namesOf, hk', hread]
  · intro p hp
    obtain ⟨k, hk, rfl⟩ := List.mem_map.mp hp
    have hk' := hlt k hk
    simpa [hk'] using hset k hk'

/-- If every file arrives once, under a name free of separators and line ends, then whatever
kwatcher and the clients do in between: every list that some client obtains is the complete set of
one date, and no date is obtained twice. -/
theorem obtained_sets_complete {content : Bool → List UInt8}
    (hblank : ∀ f, Lockfile.Blank (content f)) (ho : EachOnce s.kw.arrived)
    (hclean : ∀ a ∈ s.kw.arrived, Lockfile.Clean a.fnam)
    (hrun : exec (System.step cfg) (System.init content) es = some s) :
    ∃ sets : List (Nat × List Path), (sets.map Prod.fst).Nodup ∧
      s.lock.delivered = sets.map (fun p => p.2.map CStr.bytes) ∧
      ∀ p ∈ sets, SetOf cfg s.kw.arrived p.1 p.2 := by
  obtain ⟨dates, hpub⟩ := exec_published ho hrun
  exact hpub.delivered hblank hclean hrun

/-- Client 0 gets the set of date 1, while the files of date 2 arrive in the other order. -/
def twoSets : List Event :=
  [.lockStep .lock, .arrive (fileA 1), .arrive (fileB 1), .publish, .lockStep .unlock,
    .lockStep .lock, .arrive (fileB 2), .lockStep (.clientLock 0), .lockStep (.clientRead 0 true),
    .arrive (fileA 2), .publish]

theorem obtained_sets_complete_two :
    ∃ s, exec (System.step twoTypes) (System.init fun _ => []) twoSets = some s ∧
      s.lock.delivered = [[[49, 65], [49, 66]]] ∧
      ∃ sets : List (Nat × List Path), (sets.map Prod.fst).Nodup ∧
        s.lock.delivered = sets.map (fun p => p.2.map CStr.bytes) ∧
        ∀ p ∈ sets, SetOf twoTypes s.kw.arrived p.1 p.2 :=
  ⟨_, rfl, by decide, @obtained_sets_complete twoTypes _ twoSets (fun _ => []) (fun _ => rfl)
    (by decide) (by decide) rfl⟩

end Runs

end JitDt.Kwatcher
