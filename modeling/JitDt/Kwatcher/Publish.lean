import JitDt.Lib.Machine
import JitDt.Kwatcher.Mkhist

/-!
# Which sets kwatcher publishes

A set is published when `mkhist` returns its slot. For one date the ring is in one of two
states: its only slot holds every file of the date that has arrived, or its files are
scattered and no slot will ever be complete. A file that arrives later than the first of
its date and is not found its slot scatters them.
-/

namespace JitDt.Kwatcher

set_option autoImplicit false

open Machine
open Misclib (Path HistData fnameMax ull)

/-- The name of a file in the watched directory, and whether `rename` succeeds. -/
structure Label where
  path : Path
  renamed : Bool
deriving DecidableEq

structure Arrival where
  date : Nat
  entpoint : Fin fnameMax
  fnam : Path
deriving DecidableEq

structure State where
  hist : History
  arrived : List Arrival

def init : State := ⟨.init maxHistory, []⟩

section Definitions
variable (cfg : Config)

def Config.arrival (l : Label) : Option Arrival :=
  match cfg.regex_match l.path with
  | none => none
  | some (date, type, fnam) =>
    match cfg.sync_entry type with
    | none => none
    | some e =>
      if l.renamed then
        if hn : cfg.sync_nsize ≤ fnameMax then
          some ⟨ull (atoll date), Fin.castLE hn e, fnam⟩
        else none
      else none

def step (s : State) (l : Label) : Option State :=
  (mkhist cfg s.hist l.path l.renamed).map fun r =>
    ⟨r.hist, s.arrived ++ (cfg.arrival l).toList⟩

def returned (s : State) (l : Label) : Option HistData :=
  (mkhist cfg s.hist l.path l.renamed).bind fun r => r.entry.map r.hist.history

/-- An entry with one file of date `d` for every synchronised type. -/
def CompleteEntry (arrived : List Arrival) (d : Nat) (x : HistData) : Prop :=
  x.date = d ∧ ∀ e : Fin fnameMax, e.val < cfg.sync_nsize →
    ∃ a ∈ arrived, a.date = d ∧ a.entpoint = e ∧ x.fname e = some a.fnam

instance (arrived : List Arrival) (d : Nat) (x : HistData) :
    Decidable (CompleteEntry cfg arrived d x) := inferInstanceAs (Decidable (_ ∧ _))

/-- The call returns a complete entry for date `d`. -/
def Publishes (d : Nat) (s : State) (l : Label) : Prop :=
  ∃ x ∈ returned cfg s l, CompleteEntry cfg (s.arrived ++ (cfg.arrival l).toList) d x

instance (d : Nat) (s : State) (l : Label) : Decidable (Publishes cfg d s l) :=
  inferInstanceAs (Decidable (∃ _ ∈ returned cfg s l, _))

/-- A file of date `d`, not the first one, is not found its slot. -/
def Misses (d : Nat) (s : State) (l : Label) : Prop :=
  (∃ a ∈ cfg.arrival l, a.date = d) ∧ (∃ b ∈ s.arrived, b.date = d) ∧ ¬ Found s.hist d

instance (d : Nat) (s : State) (l : Label) : Decidable (Misses cfg d s l) :=
  inferInstanceAs (Decidable (_ ∧ _))

/-- Every synchronised type has arrived for date `d`. -/
def AllArrived (arrived : List Arrival) (d : Nat) : Prop :=
  ∀ e : Fin fnameMax, e.val < cfg.sync_nsize → ∃ a ∈ arrived, a.date = d ∧ a.entpoint = e

instance (arrived : List Arrival) (d : Nat) : Decidable (AllArrived cfg arrived d) :=
  inferInstanceAs (Decidable (∀ _ : Fin fnameMax, _))

end Definitions

/-- Each pair of a date and a type arrives once, and dates are positive. -/
structure EachOnce (arrived : List Arrival) : Prop where
  nodup : (arrived.map fun a => (a.date, a.entpoint)).Nodup
  pos : ∀ a ∈ arrived, 1 ≤ a.date

theorem eachOnce_iff {arrived : List Arrival} : EachOnce arrived ↔
    (arrived.map fun a => (a.date, a.entpoint)).Nodup ∧ ∀ a ∈ arrived, 1 ≤ a.date :=
  ⟨fun h => ⟨h.nodup, h.pos⟩, fun h => ⟨h.1, h.2⟩⟩

instance (arrived : List Arrival) : Decidable (EachOnce arrived) :=
  decidable_of_iff _ eachOnce_iff.symm

/-- Each file arrives while at most two newer dates have arrived. -/
def AtMostTwoNewer (arrived : List Arrival) : Prop :=
  ∀ k < arrived.length, ∀ a ∈ arrived[k]?,
    (((arrived.take k).map Arrival.date).filter (a.date < ·)).dedup.length ≤ 2

instance (arrived : List Arrival) : Decidable (AtMostTwoNewer arrived) :=
  inferInstanceAs (Decidable (∀ k < arrived.length, _))

/-! ## One step -/

section Step
variable {cfg : Config} {s s' : State} {l : Label}

theorem mkhist_other {r : Result} (ha : cfg.arrival l = none)
    (h : mkhist cfg s.hist l.path l.renamed = some r) : r.hist = s.hist ∧ r.entry = none := by
  unfold Config.arrival at ha
  unfold mkhist at h
  split at h
  · rw [← Option.some.inj h]
    exact ⟨rfl, rfl⟩
  · rename_i date type fnam hm
    simp only [hm] at ha
    split at h
    · rw [← Option.some.inj h]
      exact ⟨rfl, rfl⟩
    · rename_i e he
      simp only [he] at ha
      split at h
      · rename_i hren
        rw [if_pos hren] at ha
        split at h
        · rename_i hn
          rw [dif_pos hn] at ha
          cases ha
        · cases h
      · rw [← Option.some.inj h]
        exact ⟨rfl, rfl⟩

theorem mkhist_arrival {a : Arrival} {r : Result} (ha : cfg.arrival l = some a)
    (h : mkhist cfg s.hist l.path l.renamed = some r) :
    a.entpoint.val < cfg.sync_nsize ∧
      r.hist = (s.hist.enter cfg.sync_nsize a.date a.entpoint a.fnam).1 ∧
      r.entry = (s.hist.enter cfg.sync_nsize a.date a.entpoint a.fnam).2.1 := by
  unfold Config.arrival at ha
  unfold mkhist at h
  split at h
  · rename_i hm
    simp only [hm] at ha
    cases ha
  · rename_i date type fnam hm
    simp only [hm] at ha
    split at h
    · rename_i he
      simp only [he] at ha
      cases ha
    · rename_i e he
      simp only [he] at ha
      split at h
      · rename_i hren
        rw [if_pos hren] at ha
        split at h
        · rename_i hn
          rw [dif_pos hn] at ha
          rw [← Option.some.inj h, ← Option.some.inj ha]
          exact ⟨e.isLt, rfl, rfl⟩
        · cases h
      · rename_i hren
        rw [if_neg hren] at ha
        cases ha

theorem step_other (ha : cfg.arrival l = none) (h : step cfg s l = some s') :
    s' = s ∧ returned cfg s l = none := by
  obtain ⟨r, hr, rfl⟩ := Option.map_eq_some_iff.mp h
  obtain ⟨hhist, hentry⟩ := mkhist_other ha hr
  constructor
  · rw [hhist, ha]
    simp
  · unfold returned
    rw [hr, Option.bind_some, hentry]
    rfl

theorem step_arrival {a : Arrival} (ha : cfg.arrival l = some a) (h : step cfg s l = some s') :
    a.entpoint.val < cfg.sync_nsize ∧ s'.arrived = s.arrived ++ [a] ∧
      ∃ p, returned cfg s l = p.map s'.hist.history ∧
        EnterEffect s.hist cfg.sync_nsize a.date a.entpoint a.fnam s'.hist.history p := by
  obtain ⟨r, hr, rfl⟩ := Option.map_eq_some_iff.mp h
  obtain ⟨hlt, hhist, hentry⟩ := mkhist_arrival ha hr
  refine ⟨hlt, by rw [ha]; rfl, r.entry, ?_, ?_⟩
  · unfold returned
    rw [hr, Option.bind_some]
  · rw [hhist, hentry]
    exact enter_effect

end Step

/-! ## The slots -/

/-- Slots hold files that have arrived, under the date they arrived with. -/
structure Consistent (n : Nat) (slot : Nat → HistData) (arrived : List Arrival) : Prop where
  blank : ∀ q, (slot q).date = 0 → ∀ e, (slot q).fname e = none
  dated : ∀ q, (slot q).date ≠ 0 → ∃ a ∈ arrived, a.date = (slot q).date
  files : ∀ q e c, (slot q).fname e = some c → (⟨(slot q).date, e, c⟩ : Arrival) ∈ arrived
  small : ∀ a ∈ arrived, a.entpoint.val < n

/-- The only slot of date `d`, if there is one, holds every file of `d` that has arrived. -/
def Gathered (d : Nat) (slot : Nat → HistData) (arrived : List Arrival) : Prop :=
  ∀ q, (slot q).date = d → (∀ q', (slot q').date = d → q' = q) ∧
    ∀ a ∈ arrived, a.date = d → (slot q).fname a.entpoint = some a.fnam

/-- Two files of date `d` have arrived that no slot holds together. -/
def Scattered (d : Nat) (slot : Nat → HistData) (arrived : List Arrival) : Prop :=
  ∃ a ∈ arrived, ∃ b ∈ arrived, a.date = d ∧ b.date = d ∧ ∀ q, (slot q).date = d →
    (slot q).fname a.entpoint = none ∨ (slot q).fname b.entpoint = none

section Slots
variable {n d : Nat} {h : History} {slot : Nat → HistData} {arrived : List Arrival} {a : Arrival}
variable {p : Option Nat}

theorem addFile_fname (x : HistData) (e i : Fin fnameMax) (c : Path) :
    (addFile x e c).fname i = if i = e then some c else x.fname i := by
  unfold addFile
  simp only [Function.update_apply]

@[simp] theorem addFile_date (x : HistData) (e : Fin fnameMax) (c : Path) :
    (addFile x e c).date = x.date := rfl

theorem EachOnce.init (h : EachOnce (arrived ++ [a])) : EachOnce arrived where
  nodup := by
    have := h.nodup
    rw [List.map_append] at this
    exact (List.nodup_append.mp this).1
  pos := fun b hb => h.pos b (List.mem_append_left _ hb)

theorem EachOnce.last_pos (h : EachOnce (arrived ++ [a])) : 1 ≤ a.date :=
  h.pos a (List.mem_append_right _ (List.mem_singleton_self a))

theorem EachOnce.last_new (h : EachOnce (arrived ++ [a])) {b : Arrival} (hb : b ∈ arrived)
    (hd : b.date = a.date) : b.entpoint ≠ a.entpoint := by
  intro he
  have hnodup := h.nodup
  rw [List.map_append] at hnodup
  have hdisj := (List.nodup_append.mp hnodup).2.2
  exact hdisj (b.date, b.entpoint) (List.mem_map.mpr ⟨b, hb, rfl⟩) (a.date, a.entpoint)
    (by simp) (by rw [hd, he])

theorem cleared_fname (hc : Consistent n slot arrived) (q : Nat) (e : Fin fnameMax) :
    (cleared (slot q) n).fname e = none := by
  unfold cleared
  split
  · simp only
    split
    · rfl
    · rename_i hpos he
      cases hf : (slot q).fname e with
      | none => rfl
      | some c => exact absurd (hc.small _ (hc.files q e c hf)) he
  · rename_i hz
    exact hc.blank q (by omega) e

theorem opened_fname (hc : Consistent n slot arrived) (q : Nat) (i : Fin fnameMax) :
    (addFile { cleared (slot q) n with date := a.date } a.entpoint a.fnam).fname i =
      if i = a.entpoint then some a.fnam else none := by
  rw [addFile_fname]
  split
  · rfl
  · exact cleared_fname hc q i

theorem not_multiple (hc : Consistent n slot arrived) (ho : EachOnce (arrived ++ [a])) {q : Nat}
    (hq : (slot q).date = a.date) : (slot q).fname a.entpoint = none := by
  cases hf : (slot q).fname a.entpoint with
  | none => rfl
  | some c =>
    have hmem := hc.files q _ c hf
    rw [hq] at hmem
    exact absurd rfl (ho.last_new (b := ⟨a.date, a.entpoint, c⟩) hmem rfl)

theorem Consistent.append (hc : Consistent n slot arrived) (hn : a.entpoint.val < n) :
    Consistent n slot (arrived ++ [a]) where
  blank := hc.blank
  dated := by
    intro q hz
    obtain ⟨b, hb, hbd⟩ := hc.dated q hz
    exact ⟨b, List.mem_append_left _ hb, hbd⟩
  files := fun q e c hf => List.mem_append_left _ (hc.files q e c hf)
  small := by
    intro b hb
    rcases List.mem_append.mp hb with hold | hnew
    · exact hc.small b hold
    · rwa [List.mem_singleton.mp hnew]

theorem Consistent.update (hc : Consistent n slot arrived) (hpos : 1 ≤ a.date)
    (hn : a.entpoint.val < n) {q : Nat} {x : HistData} (hd : x.date = a.date)
    (hx : ∀ e c, x.fname e = some c → (⟨a.date, e, c⟩ : Arrival) ∈ arrived ++ [a]) :
    Consistent n (Function.update slot q x) (arrived ++ [a]) where
  blank := by
    intro q' hz
    by_cases hq : q' = q
    · subst hq
      rw [Function.update_self, hd] at hz
      omega
    · rw [Function.update_of_ne hq] at hz ⊢
      exact hc.blank q' hz
  dated := by
    intro q' hz
    by_cases hq : q' = q
    · subst hq
      rw [Function.update_self, hd]
      exact ⟨a, by simp, rfl⟩
    · rw [Function.update_of_ne hq] at hz ⊢
      obtain ⟨b, hb, hbd⟩ := hc.dated q' hz
      exact ⟨b, List.mem_append_left _ hb, hbd⟩
  files := by
    intro q' e c hf
    by_cases hq : q' = q
    · subst hq
      rw [Function.update_self] at hf ⊢
      rw [hd]
      exact hx e c hf
    · rw [Function.update_of_ne hq] at hf ⊢
      exact List.mem_append_left _ (hc.files q' e c hf)
  small := (hc.append hn).small

theorem EnterEffect.consistent {slot' : Nat → HistData} (hc : Consistent n h.history arrived)
    (hpos : 1 ≤ a.date) (hn : a.entpoint.val < n)
    (heff : EnterEffect h n a.date a.entpoint a.fnam slot' p) :
    Consistent n slot' (arrived ++ [a]) := by
  cases heff with
  | multiple q hq hm => exact hc.append hn
  | filled q _ hq _ =>
    have hd : (h.history q).date = a.date := hq
    refine hc.update hpos hn hd fun e c hf => ?_
    rw [addFile_fname] at hf
    split at hf
    · rename_i he
      obtain rfl := Option.some.inj hf
      subst he
      simp
    · have hmem := hc.files q e c hf
      rw [hd] at hmem
      exact List.mem_append_left _ hmem
  | opened _ =>
    refine hc.update hpos hn rfl fun e c hf => ?_
    rw [opened_fname hc] at hf
    split at hf
    · rename_i he
      obtain rfl := Option.some.inj hf
      subst he
      simp
    · cases hf

/-! ## What becomes of one date -/

variable {slot' : Nat → HistData}

/-- A file of another date leaves a slot of date `d` alone, unless it takes it over. -/
theorem EnterEffect.other (hd : a.date ≠ d)
    (heff : EnterEffect h n a.date a.entpoint a.fnam slot' p) {q : Nat}
    (hq : (slot' q).date = d) : slot' q = h.history q := by
  cases heff with
  | multiple q' hq' _ => rfl
  | filled q' _ hq' _ =>
    refine Function.update_of_ne ?_ ..
    rintro rfl
    rw [Function.update_self, addFile_date] at hq
    exact hd (hq'.symm.trans hq)
  | opened _ =>
    refine Function.update_of_ne ?_ ..
    rintro rfl
    rw [Function.update_self] at hq
    exact hd hq

theorem Gathered.other (hg : Gathered d h.history arrived) (hd : a.date ≠ d)
    (heff : EnterEffect h n a.date a.entpoint a.fnam slot' p) :
    Gathered d slot' (arrived ++ [a]) := by
  intro q hq
  have hsame := heff.other hd hq
  rw [hsame] at hq ⊢
  obtain ⟨huniq, hfiles⟩ := hg q hq
  refine ⟨fun q' hq' => huniq q' (by rw [← heff.other hd hq', hq']), fun b hb hbd => ?_⟩
  rcases List.mem_append.mp hb with hold | hnew
  · exact hfiles b hold hbd
  · rw [List.mem_singleton.mp hnew] at hbd
    exact absurd hbd hd

theorem Scattered.other (hs : Scattered d h.history arrived) (hd : a.date ≠ d)
    (heff : EnterEffect h n a.date a.entpoint a.fnam slot' p) :
    Scattered d slot' (arrived ++ [a]) := by
  obtain ⟨b, hb, c, hc, hbd, hcd, hnone⟩ := hs
  refine ⟨b, List.mem_append_left _ hb, c, List.mem_append_left _ hc, hbd, hcd, fun q hq => ?_⟩
  have hsame := heff.other hd hq
  rw [hsame] at hq ⊢
  exact hnone q hq

theorem Scattered.step (hc : Consistent n h.history arrived) (ho : EachOnce (arrived ++ [a]))
    (hs : Scattered d h.history arrived) (hd : a.date = d)
    (heff : EnterEffect h n a.date a.entpoint a.fnam slot' p) :
    Scattered d slot' (arrived ++ [a]) := by
  obtain ⟨b, hb, c, hcm, hbd, hcd, hnone⟩ := hs
  refine ⟨b, List.mem_append_left _ hb, c, List.mem_append_left _ hcm, hbd, hcd, fun q hq => ?_⟩
  have hbe := ho.last_new hb (hbd.trans hd.symm)
  have hce := ho.last_new hcm (hcd.trans hd.symm)
  cases heff with
  | multiple q' hq' hm => exact absurd (not_multiple hc ho hq') hm
  | filled q' _ hq' _ =>
    by_cases hqq : q = q'
    · subst hqq
      rw [Function.update_self, addFile_fname, addFile_fname, if_neg hbe, if_neg hce]
      exact hnone q (hq'.trans hd)
    · rw [Function.update_of_ne hqq] at hq ⊢
      exact hnone q hq
  | opened _ =>
    by_cases hqq : q = h.next
    · subst hqq
      rw [Function.update_self, opened_fname hc, if_neg hbe]
      exact Or.inl rfl
    · rw [Function.update_of_ne hqq] at hq ⊢
      exact hnone q hq

theorem Gathered.found (hc : Consistent n h.history arrived) (ho : EachOnce (arrived ++ [a]))
    (hg : Gathered d h.history arrived) (hd : a.date = d) (hf : Found h d)
    (heff : EnterEffect h n a.date a.entpoint a.fnam slot' p) :
    Gathered d slot' (arrived ++ [a]) ∧
      ∃ q, (h.history q).date = d ∧ (slot' q).date = d ∧
        p = if Filled (slot' q) n then some q else none := by
  cases heff with
  | multiple q hq hm => exact absurd (not_multiple hc ho hq) hm
  | filled q _ hq _ =>
    have hqd : (h.history q).date = d := hq.trans hd
    obtain ⟨huniq, hfiles⟩ := hg q hqd
    have hnew : ∀ q', (Function.update h.history q (addFile (h.history q) a.entpoint a.fnam)
        q').date = d → q' = q := by
      intro q' hq'
      by_cases hqq : q' = q
      · exact hqq
      · rw [Function.update_of_ne hqq] at hq'
        exact huniq q' hq'
    refine ⟨fun q' hq' => ?_, q, hqd, ?_, ?_⟩
    · obtain rfl := hnew q' hq'
      refine ⟨hnew, fun b hb hbd => ?_⟩
      rw [Function.update_self, addFile_fname]
      rcases List.mem_append.mp hb with hold | hlast
      · rw [if_neg (ho.last_new hold (hbd.trans hd.symm))]
        exact hfiles b hold hbd
      · rw [List.mem_singleton.mp hlast, if_pos rfl]
    · rw [Function.update_self]
      exact hqd
    · rw [Function.update_self]
  | opened hnot => exact absurd (hd ▸ hf) hnot

theorem EnterEffect.not_found (hc : Consistent n h.history arrived)
    (ho : EachOnce (arrived ++ [a])) (hf : ¬ Found h a.date)
    (heff : EnterEffect h n a.date a.entpoint a.fnam slot' p) :
    p = none ∧ (∀ q, q ≠ h.next → slot' q = h.history q) ∧
      ∀ e, (slot' h.next).fname e = if e = a.entpoint then some a.fnam else none := by
  cases heff with
  | multiple q hq hm => exact absurd (not_multiple hc ho hq) hm
  | filled q hfound _ _ => exact absurd hfound hf
  | opened _ =>
    refine ⟨rfl, fun q hq => Function.update_of_ne hq .., fun e => ?_⟩
    rw [Function.update_self]
    exact opened_fname hc _ e

theorem gathered_of_first (hc : Consistent n h.history arrived) (ho : EachOnce (arrived ++ [a]))
    (hd : a.date = d) (hfirst : ∀ b ∈ arrived, b.date ≠ d) (hf : ¬ Found h d)
    (heff : EnterEffect h n a.date a.entpoint a.fnam slot' p) :
    p = none ∧ Gathered d slot' (arrived ++ [a]) := by
  obtain ⟨hp, hother, hnext⟩ := heff.not_found hc ho (hd ▸ hf)
  have hpos := ho.last_pos
  have hslot : ∀ q, (slot' q).date = d → q = h.next := by
    intro q hq
    by_contra hne
    rw [hother q hne] at hq
    obtain ⟨b, hb, hbd⟩ := hc.dated q (by omega)
    exact hfirst b hb (hbd.trans hq)
  refine ⟨hp, fun q hq => ⟨fun q' hq' => (hslot q' hq').trans (hslot q hq).symm, fun b hb hbd => ?_⟩⟩
  obtain rfl := hslot q hq
  rcases List.mem_append.mp hb with hold | hlast
  · exact absurd hbd (hfirst b hold)
  · rw [List.mem_singleton.mp hlast, hnext, if_pos rfl]

theorem scattered_of_missed (hc : Consistent n h.history arrived) (ho : EachOnce (arrived ++ [a]))
    (hd : a.date = d) {b : Arrival} (hb : b ∈ arrived) (hbd : b.date = d) (hf : ¬ Found h d)
    (heff : EnterEffect h n a.date a.entpoint a.fnam slot' p) :
    p = none ∧ Scattered d slot' (arrived ++ [a]) := by
  obtain ⟨hp, hother, hnext⟩ := heff.not_found hc ho (hd ▸ hf)
  refine ⟨hp, b, List.mem_append_left _ hb, a, by simp, hbd, hd, fun q hq => ?_⟩
  by_cases hqq : q = h.next
  · subst hqq
    rw [hnext, if_neg (ho.last_new hb (hbd.trans hd.symm))]
    exact Or.inl rfl
  · rw [hother q hqq] at hq ⊢
    exact Or.inr (not_multiple hc ho (hq.trans hd.symm))

theorem EnterEffect.returned (heff : EnterEffect h n a.date a.entpoint a.fnam slot' p) {q : Nat}
    (hp : p = some q) : (slot' q).date = a.date ∧ Filled (slot' q) n := by
  cases heff with
  | multiple _ _ _ => cases hp
  | filled q' _ hq' _ =>
    split at hp
    · rename_i hfilled
      obtain rfl := Option.some.inj hp
      rw [Function.update_self]
      exact ⟨hq', hfilled⟩
    · cases hp
  | opened _ => cases hp

end Slots

/-! ## Counting the calls -/

section Counting
variable {cfg : Config} {d : Nat} {s s' : State} {l : Label} {a : Arrival} {arrived : List Arrival}

theorem allArrived_other (hd : a.date ≠ d) :
    AllArrived cfg (arrived ++ [a]) d ↔ AllArrived cfg arrived d := by
  refine forall_congr' fun e => imp_congr_right fun _ => ⟨?_, ?_⟩
  · rintro ⟨b, hb, hbd, hbe⟩
    rcases List.mem_append.mp hb with hold | hlast
    · exact ⟨b, hold, hbd, hbe⟩
    · rw [List.mem_singleton.mp hlast] at hbd
      exact absurd hbd hd
  · rintro ⟨b, hb, hbd, hbe⟩
    exact ⟨b, List.mem_append_left _ hb, hbd, hbe⟩

theorem not_allArrived (ho : EachOnce (arrived ++ [a])) (hn : a.entpoint.val < cfg.sync_nsize)
    (hd : a.date = d) : ¬ AllArrived cfg arrived d := by
  intro hall
  obtain ⟨b, hb, hbd, hbe⟩ := hall a.entpoint hn
  exact ho.last_new hb (hbd.trans hd.symm) hbe

theorem not_allArrived_first (hfirst : ∀ b ∈ arrived, b.date ≠ d)
    (hall : AllArrived cfg (arrived ++ [a]) d) : ¬ 2 ≤ cfg.sync_nsize := by
  intro htwo
  have hlast : ∀ e : Fin fnameMax, e.val < cfg.sync_nsize → a.entpoint = e := by
    intro e he
    obtain ⟨b, hb, hbd, hbe⟩ := hall e he
    rcases List.mem_append.mp hb with hold | hlast
    · exact absurd hbd (hfirst b hold)
    · rw [List.mem_singleton.mp hlast] at hbe
      exact hbe
  have h0 := hlast 0 (by simp; omega)
  have h1 := hlast 1 (by simp; omega)
  rw [h0] at h1
  exact absurd h1 (by decide)

/-- How often a date whose files were never scattered has been published. -/
def tally (cfg : Config) (arrived : List Arrival) (d : Nat) : Nat :=
  if AllArrived cfg arrived d ∧ 2 ≤ cfg.sync_nsize then 1 else 0

theorem tally_not_allArrived (h : ¬ AllArrived cfg arrived d) : tally cfg arrived d = 0 :=
  if_neg fun hall => h hall.1

theorem publishes_iff {p : Option Nat} (hret : returned cfg s l = p.map s'.hist.history)
    (harr : s'.arrived = s.arrived ++ (cfg.arrival l).toList) :
    Publishes cfg d s l ↔
      ∃ q, p = some q ∧ CompleteEntry cfg s'.arrived d (s'.hist.history q) := by
  unfold Publishes
  rw [hret, ← harr]
  cases p with
  | none => simp
  | some q => simp

theorem Scattered.not_complete (hc : Consistent cfg.sync_nsize s.hist.history s.arrived)
    (hs : Scattered d s.hist.history s.arrived) (q : Nat) :
    ¬ CompleteEntry cfg s.arrived d (s.hist.history q) := by
  rintro ⟨hqd, hfiles⟩
  obtain ⟨b, hb, c, hcm, _, _, hnone⟩ := hs
  rcases hnone q hqd with hn | hn
  · obtain ⟨_, _, _, _, hsome⟩ := hfiles b.entpoint (hc.small b hb)
    rw [hn] at hsome
    cases hsome
  · obtain ⟨_, _, _, _, hsome⟩ := hfiles c.entpoint (hc.small c hcm)
    rw [hn] at hsome
    cases hsome

theorem step_consistent (hc : Consistent cfg.sync_nsize s.hist.history s.arrived)
    (hpos : ∀ a ∈ s'.arrived, 1 ≤ a.date) (hstep : step cfg s l = some s') :
    Consistent cfg.sync_nsize s'.hist.history s'.arrived := by
  cases ha : cfg.arrival l with
  | none =>
    obtain ⟨rfl, _⟩ := step_other ha hstep
    exact hc
  | some a =>
    obtain ⟨hn, harr, p, _, heff⟩ := step_arrival ha hstep
    rw [harr] at hpos ⊢
    exact heff.consistent hc (hpos a (by simp)) hn

/-- The slot of a gathered date is returned exactly when every type has arrived. -/
theorem Gathered.complete_iff (hg : Gathered d s.hist.history s.arrived) {q : Nat}
    (hq : (s.hist.history q).date = d) :
    (Filled (s.hist.history q) cfg.sync_nsize ∧ CompleteEntry cfg s.arrived d (s.hist.history q)) ↔
      AllArrived cfg s.arrived d := by
  constructor
  · rintro ⟨_, _, hfiles⟩ e he
    obtain ⟨b, hb, hbd, hbe, _⟩ := hfiles e he
    exact ⟨b, hb, hbd, hbe⟩
  · intro hall
    have hfile : ∀ e : Fin fnameMax, e.val < cfg.sync_nsize → ∃ b ∈ s.arrived, b.date = d ∧
        b.entpoint = e ∧ (s.hist.history q).fname e = some b.fnam := by
      intro e he
      obtain ⟨b, hb, hbd, rfl⟩ := hall e he
      exact ⟨b, hb, hbd, rfl, (hg q hq).2 b hb hbd⟩
    refine ⟨fun e he => ?_, hq, hfile⟩
    obtain ⟨b, _, _, _, hb⟩ := hfile e he
    rw [hb]
    rfl

theorem two_types (hc : Consistent cfg.sync_nsize s.hist.history arrived)
    (ho : EachOnce (arrived ++ [a])) (hn : a.entpoint.val < cfg.sync_nsize) {q : Nat}
    (hq : (s.hist.history q).date = a.date) : 2 ≤ cfg.sync_nsize := by
  have hpos := ho.last_pos
  obtain ⟨b, hb, hbd⟩ := hc.dated q (by omega)
  have hlt := hc.small b hb
  have hne : b.entpoint.val ≠ a.entpoint.val :=
    fun he => ho.last_new hb (hbd.trans hq) (Fin.ext he)
  omega

theorem not_publishes_of_none (h : returned cfg s l = none) : ¬ Publishes cfg d s l := by
  rintro ⟨x, hx, _⟩
  rw [h] at hx
  cases hx

/-- A file that is not scattered from its date counts towards it. -/
theorem gathered_step (hc : Consistent cfg.sync_nsize s.hist.history s.arrived)
    (ho : EachOnce s'.arrived) (hstep : step cfg s l = some s')
    (hg : Gathered d s.hist.history s.arrived) (hmiss : ¬ Misses cfg d s l) :
    Gathered d s'.hist.history s'.arrived ∧
      tally cfg s'.arrived d = tally cfg s.arrived d + if Publishes cfg d s l then 1 else 0 := by
  have hc' := step_consistent hc ho.pos hstep
  cases ha : cfg.arrival l with
  | none =>
    obtain ⟨rfl, hret⟩ := step_other ha hstep
    refine ⟨hg, ?_⟩
    rw [if_neg (not_publishes_of_none hret)]
    rfl
  | some a =>
    obtain ⟨hn, harr, p, hret, heff⟩ := step_arrival ha hstep
    have hpub := publishes_iff (d := d) hret (by rw [harr, ha]; rfl)
    rw [harr] at ho
    by_cases hd : a.date = d
    · by_cases hf : Found s.hist d
      · obtain ⟨hg', q, hqd, hqd', hp⟩ := hg.found hc ho hd hf heff
        rw [← harr] at hg'
        have htwo := two_types hc ho hn (hqd.trans hd.symm)
        have hiff : Publishes cfg d s l ↔ AllArrived cfg s'.arrived d := by
          rw [hpub, ← hg'.complete_iff hqd', hp]
          by_cases hfilled : Filled (s'.hist.history q) cfg.sync_nsize
          · simp [hfilled]
          · simp [hfilled]
        refine ⟨hg', ?_⟩
        rw [tally_not_allArrived (not_allArrived ho hn hd), tally, Nat.zero_add]
        simp only [hiff, htwo, and_true]
      · have hfirst : ∀ b ∈ s.arrived, b.date ≠ d :=
          fun b hb hbd => hmiss ⟨⟨a, ha, hd⟩, ⟨b, hb, hbd⟩, hf⟩
        obtain ⟨hp, hg'⟩ := gathered_of_first hc ho hd hfirst hf heff
        rw [tally_not_allArrived (not_allArrived ho hn hd), harr]
        refine ⟨hg', ?_⟩
        rw [if_neg, tally, if_neg]
        · exact fun hall => not_allArrived_first hfirst hall.1 hall.2
        · rw [hpub, hp]
          simp
    · rw [harr]
      refine ⟨hg.other hd heff, ?_⟩
      rw [if_neg, Nat.add_zero]
      · unfold tally
        simp only [allArrived_other hd]
      · rw [hpub]
        rintro ⟨q, hq, hqd, _⟩
        exact hd ((heff.returned hq).1.symm.trans hqd)

theorem scattered_step (hc : Consistent cfg.sync_nsize s.hist.history s.arrived)
    (ho : EachOnce s'.arrived) (hstep : step cfg s l = some s')
    (hs : Scattered d s.hist.history s.arrived ∨
      (Gathered d s.hist.history s.arrived ∧ Misses cfg d s l)) :
    Scattered d s'.hist.history s'.arrived ∧ ¬ Publishes cfg d s l := by
  have hc' := step_consistent hc ho.pos hstep
  cases ha : cfg.arrival l with
  | none =>
    obtain ⟨rfl, hret⟩ := step_other ha hstep
    refine ⟨?_, not_publishes_of_none hret⟩
    rcases hs with hs | ⟨_, ⟨a, haa, _⟩, _⟩
    · exact hs
    · rw [ha] at haa
      cases haa
  | some a =>
    obtain ⟨hn, harr, p, hret, heff⟩ := step_arrival ha hstep
    have hpub := publishes_iff (d := d) hret (by rw [harr, ha]; rfl)
    rw [harr] at ho
    have hs' : Scattered d s'.hist.history s'.arrived := by
      rw [harr]
      rcases hs with hs | ⟨_, ⟨a', haa, hd⟩, ⟨b, hb, hbd⟩, hf⟩
      · by_cases hd : a.date = d
        · exact hs.step hc ho hd heff
        · exact hs.other hd heff
      · obtain rfl : a = a' := Option.some.inj (ha.symm.trans haa)
        exact (scattered_of_missed hc ho hd hb hbd hf heff).2
    refine ⟨hs', ?_⟩
    rw [hpub]
    rintro ⟨q, _, hcomplete⟩
    exact hs'.not_complete hc' q hcomplete

/-! ## Every run -/

def Fate (cfg : Config) (d : Nat) (ls : List Label) (s : State) : Prop :=
  (Along (step cfg) (fun s l => ¬ Misses cfg d s l) init ls ∧
      Gathered d s.hist.history s.arrived ∧
      countAlong (step cfg) (Publishes cfg d) init ls = tally cfg s.arrived d) ∨
    (¬ Along (step cfg) (fun s l => ¬ Misses cfg d s l) init ls ∧
      Scattered d s.hist.history s.arrived ∧
      countAlong (step cfg) (Publishes cfg d) init ls = 0)

theorem Fate.step {ls : List Label} (hrun : exec (step cfg) init ls = some s)
    (hc : Consistent cfg.sync_nsize s.hist.history s.arrived) (ho : EachOnce s'.arrived)
    (hstep : Kwatcher.step cfg s l = some s') (h : Fate cfg d ls s) :
    Fate cfg d (ls ++ [l]) s' := by
  unfold Fate
  rw [along_snoc_iff hrun, countAlong_snoc hrun]
  rcases h with ⟨halong, hg, hcount⟩ | ⟨halong, hs, hcount⟩
  · by_cases hmiss : Misses cfg d s l
    · obtain ⟨hs', hpub⟩ := scattered_step hc ho hstep (Or.inr ⟨hg, hmiss⟩)
      refine Or.inr ⟨fun hall => hall.2 hmiss, hs', ?_⟩
      obtain ⟨⟨a, ha, hd⟩, _, _⟩ := hmiss
      obtain ⟨hn, harr, _⟩ := step_arrival ha hstep
      rw [harr] at ho
      rw [hcount, if_neg hpub, tally_not_allArrived (not_allArrived ho hn hd)]
    · obtain ⟨hg', htally⟩ := gathered_step hc ho hstep hg hmiss
      refine Or.inl ⟨⟨halong, hmiss⟩, hg', ?_⟩
      rw [hcount, htally]
  · obtain ⟨hs', hpub⟩ := scattered_step hc ho hstep (Or.inl hs)
    refine Or.inr ⟨fun hall => halong hall.1, hs', ?_⟩
    rw [hcount, if_neg hpub]

theorem consistent_init (n : Nat) : Consistent n init.hist.history init.arrived where
  blank := fun _ _ _ => rfl
  dated := fun _ h => absurd rfl h
  files := by
    intro q e c h
    cases h
  small := by simp [init]

theorem fate_init (hd : 1 ≤ d) : Fate cfg d [] init := by
  refine Or.inl ⟨along_nil, ?_, ?_⟩
  · intro q hq
    have hzero : 0 = d := hq
    omega
  · rw [tally, if_neg]
    · rfl
    · rintro ⟨hall, htwo⟩
      obtain ⟨a, ha, _⟩ := hall 0 (by simp; omega)
      cases ha

theorem step_eachOnce (hstep : Kwatcher.step cfg s l = some s') (ho : EachOnce s'.arrived) :
    EachOnce s.arrived := by
  cases ha : cfg.arrival l with
  | none =>
    obtain ⟨rfl, _⟩ := step_other ha hstep
    exact ho
  | some a =>
    obtain ⟨_, harr, _⟩ := step_arrival ha hstep
    rw [harr] at ho
    exact ho.init

theorem exec_fate (hd : 1 ≤ d) {ls : List Label} (hrun : exec (step cfg) init ls = some s)
    (ho : EachOnce s.arrived) : Fate cfg d ls s := by
  have hinv : EachOnce s.arrived →
      Consistent cfg.sync_nsize s.hist.history s.arrived ∧ Fate cfg d ls s := by
    refine exec_invariant_past (I := fun ls s => EachOnce s.arrived →
      Consistent cfg.sync_nsize s.hist.history s.arrived ∧ Fate cfg d ls s) ?_ ?_ hrun
    · exact fun _ => ⟨consistent_init _, fate_init hd⟩
    · intro ls s l s' hrun ih hstep ho'
      obtain ⟨hc, hfate⟩ := ih (step_eachOnce hstep ho')
      exact ⟨step_consistent hc ho'.pos hstep, hfate.step hrun hc ho' hstep⟩
  exact (hinv ho).2

/-- `mkhist` returns a complete entry for a date exactly once if and only if there are at
least two types and every file of that date but the first finds its slot. -/
theorem published_once_iff {ls : List Label} (hrun : exec (step cfg) init ls = some s)
    (ho : EachOnce s.arrived) (hd : 1 ≤ d) (hall : AllArrived cfg s.arrived d) :
    countAlong (step cfg) (Publishes cfg d) init ls = 1 ↔
      2 ≤ cfg.sync_nsize ∧ Along (step cfg) (fun s l => ¬ Misses cfg d s l) init ls := by
  rcases exec_fate hd hrun ho with ⟨halong, _, hcount⟩ | ⟨halong, _, hcount⟩
  · rw [hcount, tally]
    by_cases htwo : 2 ≤ cfg.sync_nsize
    · simp [hall, htwo, halong]
    · simp [htwo]
  · rw [hcount]
    simp [halong]

end Counting

/-! ## Two types -/

def twoTypes : Config where
  regex_match := fun path => some
    (⟨path.bytes.take 1, fun h => path.nul_free (List.mem_of_mem_take h)⟩,
      ⟨path.bytes.drop 1, fun h => path.nul_free (List.mem_of_mem_drop h)⟩, path)
  synctype := [⟨[65], by decide⟩, ⟨[66], by decide⟩]

def file (date type : UInt8) (h : (0 : UInt8) ∉ [date, type]) : Label := ⟨⟨[date, type], h⟩, true⟩

theorem digit_ne (d : Nat) (type : UInt8) (h : type ≠ 0) :
    (0 : UInt8) ∉ [UInt8.ofNat (48 + d % 10), type] := by
  rw [List.mem_pair, not_or]
  refine ⟨?_, h.symm⟩
  intro he
  have hval := congrArg UInt8.toNat he
  rw [UInt8.toNat_ofNat'] at hval
  have hzero : (0 : UInt8).toNat = 0 := rfl
  omega

/-- The file of date `d`, less than 10, and type A. -/
def fileA (d : Nat) : Label := file (UInt8.ofNat (48 + d % 10)) 65 (digit_ne d 65 (by decide))

def fileB (d : Nat) : Label := file (UInt8.ofNat (48 + d % 10)) 66 (digit_ne d 66 (by decide))

def twoDates : List Label :=
  [file 49 65 (by decide), file 50 66 (by decide), file 49 66 (by decide), file 50 65 (by decide)]

theorem published_once_iff_two :
    ∃ s, exec (step twoTypes) init twoDates = some s ∧ AllArrived twoTypes s.arrived 1 ∧
      countAlong (step twoTypes) (Publishes twoTypes 1) init twoDates = 1 := by
  refine ⟨_, rfl, by decide, ?_⟩
  exact (@published_once_iff twoTypes 1 _ twoDates rfl (by decide) (by decide) (by decide)).mpr
    ⟨by decide, by decide⟩

/-- The late second file of date 1 leaves the ring at its slot, so the second file of
date 3 takes over the slot of date 2, and neither date is ever published. -/
def lateRun : List Label :=
  [file 49 65 (by decide), file 50 65 (by decide), file 51 65 (by decide),
    file 49 66 (by decide), file 51 66 (by decide), file 50 66 (by decide)]

theorem complete_set_not_published : ∃ s, exec (step twoTypes) init lateRun = some s ∧
    EachOnce s.arrived ∧ AtMostTwoNewer s.arrived ∧ AllArrived twoTypes s.arrived 3 ∧
    countAlong (step twoTypes) (Publishes twoTypes 3) init lateRun = 0 :=
  ⟨_, rfl, by decide, by decide, by decide, by decide⟩

end JitDt.Kwatcher
