import JitDt.Lib.RingIndex
import JitDt.Kwatcher.Slots

/-!
# Which slot kwatcher takes over

`mkhist` always takes the slot behind the current one. Number the files that got a slot of
their own from 1 on: as long as each of them is newer than all others and arrives while
the current slot is the newest, number `k` lies in slot `k % nhist`, dates increase with
the number, and the slot behind the newest is the oldest. A late file that is found its
slot leaves the current slot there, and the next new date then takes a younger slot.
-/

namespace JitDt.Kwatcher

set_option autoImplicit false

open Machine RingIndex
open Misclib (fnameMax)

/-- The slot has the smallest date of all slots in use. -/
def Oldest (h : History) (q : Nat) : Prop :=
  ∀ q' < h.nhist, 0 < h.date q' → h.date q ≤ h.date q'

instance (h : History) (q : Nat) : Decidable (Oldest h q) :=
  inferInstanceAs (Decidable (∀ q' < _, _))

def CurrentNewest (h : History) : Prop := ∀ q < h.nhist, h.date q ≤ h.date h.curhistp

instance (h : History) : Decidable (CurrentNewest h) := inferInstanceAs (Decidable (∀ q < _, _))

section Definitions
variable (cfg : Config)

/-- The files of slot `q` are unlinked and the slot is used for a new date. -/
def Reuses (q : Nat) (s : State) (l : Label) : Prop := 0 < s.hist.date q ∧ Recreates cfg q s l

def RecyclesOldest (s : State) (l : Label) : Prop := ∀ q, Reuses cfg q s l → Oldest s.hist q

/-- A file that gets a slot of its own is newer than all slots, and the current slot is
the newest. -/
def Appends (s : State) (l : Label) : Prop :=
  ∀ a ∈ cfg.arrival l, ¬ Found s.hist a.date →
    CurrentNewest s.hist ∧ s.hist.date s.hist.curhistp < a.date

instance (s : State) (l : Label) : Decidable (Appends cfg s l) :=
  inferInstanceAs (Decidable (∀ _ ∈ cfg.arrival l, _))

def ArrivesPos (l : Label) : Prop := ∀ a ∈ cfg.arrival l, 1 ≤ a.date

instance (l : Label) : Decidable (ArrivesPos cfg l) :=
  inferInstanceAs (Decidable (∀ _ ∈ cfg.arrival l, _))

end Definitions

/-- `N` files have got a slot of their own, and the current slot is that of number `c`. -/
structure Numbered (h : History) (N c : Nat) : Prop where
  size : 0 < h.nhist
  cur : h.curhistp = c % h.nhist
  le : c ≤ N
  near : N < c + h.nhist
  used : N ≠ 0 → 0 < c
  fresh : ∀ k, N < k → k < h.nhist → h.date k = 0
  zero : N < h.nhist → h.date 0 = 0
  pos : ∀ a, 0 < a → a ≤ N → N < a + h.nhist → 0 < h.date (a % h.nhist)
  sorted : ∀ a b, a < b → b ≤ N → N < a + h.nhist →
    h.date (a % h.nhist) < h.date (b % h.nhist)

namespace Numbered

variable {h : History} {N c q : Nat}

theorem cur_lt (hn : Numbered h N c) : h.curhistp < h.nhist := by
  rw [hn.cur]
  exact Nat.mod_lt _ hn.size

/-- Every slot in use has a number. -/
theorem number (hn : Numbered h N c) (hq : q < h.nhist) (hd : 0 < h.date q) :
    ∃ k, 0 < k ∧ k ≤ N ∧ N < k + h.nhist ∧ k % h.nhist = q := by
  by_cases hN : N < h.nhist
  · have hle : q ≤ N := by
      by_contra hlt
      rw [hn.fresh q (by omega) hq] at hd
      exact lt_irrefl 0 hd
    have hne : q ≠ 0 := by
      rintro rfl
      rw [hn.zero hN] at hd
      exact lt_irrefl 0 hd
    exact ⟨q, by omega, hle, by omega, Nat.mod_eq_of_lt hq⟩
  · obtain ⟨k, hk, hnear, hslot⟩ := exists_position (a := N) hq (by omega)
    exact ⟨k, by omega, hk, hnear, hslot⟩

theorem newest_iff (hn : Numbered h N c) : CurrentNewest h ↔ c = N := by
  have hle := hn.le
  have hnear := hn.near
  constructor
  · intro hnew
    by_contra hne
    have hlt := hn.sorted c N (by omega) (le_refl N) hnear
    have hmax := hnew (N % h.nhist) (Nat.mod_lt _ hn.size)
    rw [hn.cur] at hmax
    omega
  · rintro rfl q hq
    by_cases hd : 0 < h.date q
    · obtain ⟨k, _, hk, hknear, rfl⟩ := hn.number hq hd
      rw [hn.cur]
      rcases Nat.lt_or_ge k c with hlt | hge
      · exact (hn.sorted k c hlt (le_refl c) hknear).le
      · obtain rfl : k = c := by omega
        exact le_refl _
    · omega

theorem next_eq (hn : Numbered h N c) : h.next = (c + 1) % h.nhist := by
  unfold History.next
  rw [hn.cur, Nat.mod_add_mod]

/-- The slot behind the newest one holds the smallest number still there. -/
theorem next_number (hn : Numbered h N N) (hd : 0 < h.date h.next) :
    ∃ p, 0 < p ∧ p + h.nhist = N + 1 ∧ p % h.nhist = h.next := by
  have hlt : h.next < h.nhist := Nat.mod_lt _ hn.size
  obtain ⟨p, hp, hpN, hpnear, hpslot⟩ := hn.number hlt hd
  refine ⟨p, hp, ?_, hpslot⟩
  by_contra hne
  refine mod_ne_of_lt (n := h.nhist) (a := p) (b := N + 1) (by omega) (by omega) ?_
  rw [hpslot, hn.next_eq]

/-- The slot behind the current one is the oldest exactly if the current one is the newest. -/
theorem oldest_next_iff (hn : Numbered h N c) (hd : 0 < h.date h.next) :
    Oldest h h.next ↔ CurrentNewest h := by
  rw [hn.newest_iff]
  have hle := hn.le
  have hnear := hn.near
  constructor
  · intro hold
    by_contra hne
    have hcpos := hn.pos c (hn.used (by omega)) hle hnear
    have hstep := hn.sorted c (c + 1) (by omega) (by omega) hnear
    rw [← hn.next_eq, ← hn.cur] at hstep
    rw [← hn.cur] at hcpos
    have hmin := hold h.curhistp hn.cur_lt hcpos
    omega
  · rintro rfl q hq hqd
    obtain ⟨k, _, hk, hknear, rfl⟩ := hn.number hq hqd
    obtain ⟨p, hp, hsmall, hpslot⟩ := hn.next_number hd
    rw [← hpslot]
    rcases Nat.lt_or_ge p k with hpk | hpk
    · exact (hn.sorted p k hpk hk (by omega)).le
    · obtain rfl : p = k := by omega
      exact le_refl _

/-- A late file moves the current slot to one in use. -/
theorem found {h' : History} (hn : Numbered h N c) (hsize : h'.nhist = h.nhist)
    (hcur : 0 < h.date h'.curhistp) (hlt : h'.curhistp < h.nhist)
    (hd : ∀ q, h'.date q = h.date q) : ∃ c', Numbered h' N c' := by
  obtain ⟨k, hk, hkN, hknear, hslot⟩ := hn.number hlt hcur
  refine ⟨k, ?_, ?_, hkN, ?_, fun _ => hk, ?_, ?_, ?_, ?_⟩
  · rw [hsize]
    exact hn.size
  · rw [hsize, hslot]
  · rw [hsize]
    exact hknear
  · intro j
    rw [hsize, hd]
    exact hn.fresh j
  · rw [hsize, hd]
    exact hn.zero
  · intro a
    rw [hsize, hd]
    exact hn.pos a
  · intro a b
    rw [hsize, hd, hd]
    exact hn.sorted a b

/-- A new date behind the newest one gets the next number. -/
theorem opened {h' : History} {d : Nat} (hn : Numbered h N N) (hsize : h'.nhist = h.nhist)
    (hd : h.date h.curhistp < d) (hcur : h'.curhistp = h.next) (hself : h'.date h.next = d)
    (hother : ∀ q, q ≠ h.next → h'.date q = h.date q) : Numbered h' (N + 1) (N + 1) := by
  have hslot := hn.next_eq
  have hpos := hn.size
  have hkeep : ∀ a, a ≤ N → N + 1 < a + h.nhist → h'.date (a % h.nhist) = h.date (a % h.nhist) := by
    intro a ha hnear
    refine hother _ ?_
    rw [hslot]
    exact mod_ne_of_lt (by omega) hnear
  refine ⟨?_, ?_, le_refl _, ?_, fun _ => Nat.succ_pos N, ?_, ?_, ?_, ?_⟩
  · rw [hsize]
    exact hpos
  · rw [hsize, hcur, hslot]
  · rw [hsize]
    omega
  · intro k hk hkn
    rw [hsize] at hkn
    rw [hother, hn.fresh k (by omega) hkn]
    rw [hslot, Nat.mod_eq_of_lt (by omega)]
    omega
  · intro hN
    rw [hsize] at hN
    rw [hother, hn.zero (by omega)]
    rw [hslot, Nat.mod_eq_of_lt (by omega)]
    omega
  · intro a ha haN hnear
    rw [hsize] at hnear ⊢
    by_cases he : a = N + 1
    · rw [he, ← hslot, hself]
      omega
    · rw [hkeep a (by omega) hnear]
      exact hn.pos a ha (by omega) (by omega)
  · intro a b hab hb hnear
    rw [hsize] at hnear ⊢
    rw [hkeep a (by omega) hnear]
    by_cases he : b = N + 1
    · rw [he, ← hslot, hself]
      rcases Nat.lt_or_ge a N with hlt | hge
      · have hless := hn.sorted a N hlt (le_refl N) (by omega)
        rw [← hn.cur] at hless
        omega
      · obtain rfl : a = N := by omega
        rw [← hn.cur]
        exact hd
    · rw [hkeep b (by omega) (by omega)]
      exact hn.sorted a b hab (by omega) (by omega)

end Numbered

theorem numbered_start {nhist : Nat} (h : 0 < nhist) : Numbered (start nhist).hist 0 0 where
  size := h
  cur := (Nat.zero_mod _).symm
  le := le_refl 0
  near := by simpa [start, History.init] using h
  used := fun hne => absurd rfl hne
  fresh := fun _ _ _ => rfl
  zero := fun _ => rfl
  pos := by
    intro a ha hle
    omega
  sorted := by
    intro a b hab hb
    omega

section Runs
variable {cfg : Config} {s t : State} {l : Label} {ls : List Label}

theorem prev_lt {n : Nat} (hn : 0 < n) (p : Nat) : prev n p < n := by
  unfold prev
  split
  · omega
  · exact Nat.mod_lt _ hn

theorem numbered_step (hn : ∃ N c, Numbered s.hist N c) (happ : Appends cfg s l)
    (hpos : ArrivesPos cfg l) (h : step cfg s l = some t) : ∃ N c, Numbered t.hist N c := by
  obtain ⟨N, c, hn⟩ := hn
  cases ha : cfg.arrival l with
  | none =>
    obtain ⟨rfl, _⟩ := step_other ha h
    exact ⟨N, c, hn⟩
  | some a =>
    obtain ⟨hsize, hdates⟩ := step_dates ha h
    cases hdates with
    | found hf hcur hat hd =>
      have hdate : 1 ≤ a.date := hpos a ha
      have hlt : t.hist.curhistp < s.hist.nhist := by
        rcases hat with he | he | he | he
        · rw [he]
          exact hn.cur_lt
        · rw [he]
          exact prev_lt hn.size _
        · rw [he]
          exact prev_lt hn.size _
        · rw [he]
          exact Nat.mod_lt _ hn.size
      obtain ⟨c', hn'⟩ := hn.found hsize (by omega) hlt hd
      exact ⟨N, c', hn'⟩
    | opened hnot hcur hself hother =>
      obtain ⟨hnew, hlt⟩ := happ a ha hnot
      obtain rfl := hn.newest_iff.mp hnew
      exact ⟨_, _, hn.opened hsize hlt hcur hself hother⟩

/-- Only the slot behind the current one is ever taken over, for a date that has none. -/
theorem Reuses.opened {q : Nat} (h : Reuses cfg q s l) :
    q = s.hist.next ∧ ∃ a, cfg.arrival l = some a ∧ ¬ Found s.hist a.date := by
  obtain ⟨_, t, ht, hne⟩ := h
  cases ha : cfg.arrival l with
  | none =>
    obtain ⟨rfl, _⟩ := step_other ha ht
    exact absurd rfl hne
  | some a =>
    cases (step_dates ha ht).2 with
    | found _ _ _ hd => exact absurd (hd q) hne
    | opened hnot _ _ hother =>
      refine ⟨?_, a, rfl, hnot⟩
      by_contra hq
      exact hne (hother q hq)

theorem reuses_oldest_iff {q : Nat} (hn : ∃ N c, Numbered s.hist N c) (h : Reuses cfg q s l) :
    Oldest s.hist q ↔ CurrentNewest s.hist := by
  obtain ⟨N, c, hn⟩ := hn
  have hd := h.1
  obtain rfl := h.opened.1
  exact hn.oldest_next_iff hd

theorem recyclesOldest_step (hn : ∃ N c, Numbered s.hist N c) (happ : Appends cfg s l) :
    RecyclesOldest cfg s l := by
  intro q hre
  obtain ⟨a, ha, hnot⟩ := hre.opened.2
  exact (reuses_oldest_iff hn hre).mpr (happ a ha hnot).1

theorem exec_arrivesPos (h : exec (step cfg) s ls = some t) (hpos : DatesPos t) :
    Along (step cfg) (fun _ l => ArrivesPos cfg l) s ls := by
  apply along_of_forall
  induction ls generalizing s with
  | nil => simp
  | cons l ls ih =>
    obtain ⟨u, hu, hut⟩ := exec_cons_iff.mp h
    intro l' hl' a ha
    rcases List.mem_cons.mp hl' with rfl | hl'
    · apply hpos.start_of_exec hut
      rw [step_arrived hu]
      exact List.mem_append_right _ (Option.mem_toList.mpr ha)
    · exact ih hut l' hl' a ha

/-- In a run in which every file that gets a slot of its own is newer than all slots and
arrives while the current slot is the newest, every slot taken over has the smallest date.
After such a run, the next slot taken over has it if and only if the current slot is still
the newest. The condition on the run is sufficient: a file with an older date that gets a slot of
its own may do no harm. -/
theorem recycles_oldest (h : exec (step cfg) init ls = some s) (hpos : DatesPos s)
    (happ : Along (step cfg) (Appends cfg) init ls) :
    Along (step cfg) (RecyclesOldest cfg) init ls ∧
      ∀ q l, Reuses cfg q s l → (Oldest s.hist q ↔ CurrentNewest s.hist) := by
  have hboth := happ.and (exec_arrivesPos h hpos)
  have hinit : ∃ N c, Numbered init.hist N c := ⟨0, 0, numbered_start (by decide)⟩
  constructor
  · exact along_of_along (I := fun s => ∃ N c, Numbered s.hist N c)
      (fun hn hC hstep => numbered_step hn hC.1 hC.2 hstep)
      (fun hn hC => recyclesOldest_step hn hC.1) hinit hboth
  · intro q l hre
    have hn : ∃ N c, Numbered s.hist N c :=
      exec_invariant_along (I := fun s => ∃ N c, Numbered s.hist N c)
        (fun hn hC hstep => numbered_step hn hC.1 hC.2 hstep) hinit hboth h
    exact reuses_oldest_iff hn hre

def sixDates : List Label :=
  [fileA 1, fileA 2, fileB 1, fileB 2, fileA 3, fileA 4, fileA 5, fileA 6]

/-- The file of date 6 takes over the slot of date 1. -/
theorem recycles_oldest_six : Along (step twoTypes) (RecyclesOldest twoTypes) init sixDates :=
  (@recycles_oldest twoTypes _ sixDates rfl (by decide) (by decide)).1

/-- After the late second file of date 1, the file of date 4 takes over the slot of date 2. -/
theorem recycles_younger : ∃ s t, exec (step twoTypes) init (lateRun.take 4) = some s ∧
    step twoTypes s (fileA 4) = some t ∧ DatesPos t ∧ s.hist.date 2 = 2 ∧ t.hist.date 2 = 4 ∧
    s.hist.date 1 = 1 ∧
    ¬ Along (step twoTypes) (RecyclesOldest twoTypes) init (lateRun.take 4 ++ [fileA 4]) := by
  have hrun : exec (step twoTypes) init (lateRun.take 4) = some _ := rfl
  refine ⟨_, _, hrun, rfl, by decide, by decide, by decide, by decide, fun h => ?_⟩
  have hlast := ((along_snoc_iff hrun).mp h).2 2 ⟨by decide, _, rfl, by decide⟩ 1
  exact absurd (hlast (by decide) (by decide)) (by decide)

end Runs

end JitDt.Kwatcher
