import Mathlib

/-!
# Handles that are opened and closed

A table of handles gives out a new one for each that is opened, and remembers whether one was ever
used or closed that was not open. `Accounted` is the state of a program in which every holder has
one open handle of its own and the rest of the open ones are lost; `Dangles` that of a program in
which a closed handle was used or is still held.
-/

namespace JitDt

set_option autoImplicit false

universe u

structure Handles where
  next : Nat
  live : Finset Nat
  misused : Bool
  lt_next : ∀ k ∈ live, k < next

namespace Handles

def empty : Handles := ⟨0, ∅, false, by simp⟩

/-- The new handle is `h.next`. -/
def acquire (h : Handles) : Handles where
  next := h.next + 1
  live := insert h.next h.live
  misused := h.misused
  lt_next := by
    intro k hk
    rcases Finset.mem_insert.mp hk with rfl | hk
    · exact Nat.lt_succ_self _
    · exact (h.lt_next k hk).trans (Nat.lt_succ_self _)

def release (h : Handles) (k : Nat) : Handles where
  next := h.next
  live := h.live.erase k
  misused := h.misused || decide (k ∉ h.live)
  lt_next := fun j hj => h.lt_next j (Finset.mem_of_mem_erase hj)

def use (h : Handles) (k : Nat) : Handles :=
  { h with misused := h.misused || decide (k ∉ h.live) }

variable {ι : Type u}

/-- Every holder has an open handle of its own, and the other open ones are in `lost`. -/
structure Accounted (h : Handles) (held : ι → Option Nat) (lost : Finset Nat) : Prop where
  unused : h.misused = false
  live : ∀ {i k}, held i = some k → k ∈ h.live
  own : ∀ {i j k}, held i = some k → held j = some k → i = j
  rest : ∀ {k}, k ∈ h.live → k ∈ lost ∨ ∃ i, held i = some k
  lost_live : lost ⊆ h.live
  apart : ∀ {i k}, held i = some k → k ∉ lost

theorem accounted_empty : empty.Accounted (fun _ : ι => none) ∅ where
  unused := rfl
  live := nofun
  own := nofun
  rest := fun hk => absurd hk (Finset.notMem_empty _)
  lost_live := Finset.Subset.refl _
  apart := nofun

namespace Accounted

variable {h : Handles} {held : ι → Option Nat} {lost : Finset Nat} {i : ι} {k : Nat}

theorem acquire [DecidableEq ι] (ha : h.Accounted held lost) (hi : held i = none) :
    h.acquire.Accounted (Function.update held i (some h.next)) lost where
  unused := ha.unused
  live := by
    intro j k hj
    by_cases hji : j = i
    · subst hji
      rw [Function.update_self] at hj
      rw [← Option.some.inj hj]
      exact Finset.mem_insert_self _ _
    · rw [Function.update_of_ne hji] at hj
      exact Finset.mem_insert_of_mem (ha.live hj)
  own := by
    have hfresh : ∀ {j}, held j ≠ some h.next := fun hj =>
      absurd (h.lt_next _ (ha.live hj)) (Nat.lt_irrefl _)
    intro j j' k hj hj'
    by_cases hji : j = i <;> by_cases hji' : j' = i
    · rw [hji, hji']
    · subst hji
      rw [Function.update_self] at hj
      rw [Function.update_of_ne hji', ← hj] at hj'
      exact absurd hj' hfresh
    · subst hji'
      rw [Function.update_self] at hj'
      rw [Function.update_of_ne hji, ← hj'] at hj
      exact absurd hj hfresh
    · rw [Function.update_of_ne hji] at hj
      rw [Function.update_of_ne hji'] at hj'
      exact ha.own hj hj'
  rest := by
    intro k hk
    rcases Finset.mem_insert.mp hk with rfl | hk
    · exact .inr ⟨i, Function.update_self ..⟩
    · refine (ha.rest hk).imp id ?_
      rintro ⟨j, hj⟩
      refine ⟨j, ?_⟩
      rw [Function.update_of_ne, hj]
      rintro rfl
      rw [hi] at hj
      cases hj
  lost_live := fun k hk => Finset.mem_insert_of_mem (ha.lost_live hk)
  apart := by
    intro j k hj
    by_cases hji : j = i
    · subst hji
      rw [Function.update_self] at hj
      rw [← Option.some.inj hj]
      exact fun hk => absurd (h.lt_next _ (ha.lost_live hk)) (Nat.lt_irrefl _)
    · rw [Function.update_of_ne hji] at hj
      exact ha.apart hj

/-- A holder that has no handle any more. -/
theorem update_none [DecidableEq ι] {j : ι} (hj : Function.update held i none j = some k) :
    j ≠ i ∧ held j = some k := by
  have hji : j ≠ i := by
    rintro rfl
    rw [Function.update_self] at hj
    cases hj
  exact ⟨hji, by rwa [Function.update_of_ne hji] at hj⟩

theorem release [DecidableEq ι] (ha : h.Accounted held lost) (hi : held i = some k) :
    (h.release k).Accounted (Function.update held i none) lost where
  unused := by simp [Handles.release, ha.unused, ha.live hi]
  live := by
    intro j k' hj
    obtain ⟨hji, hj⟩ := update_none hj
    refine Finset.mem_erase.mpr ⟨?_, ha.live hj⟩
    rintro rfl
    exact hji (ha.own hj hi)
  own := fun hj hj' => ha.own (update_none hj).2 (update_none hj').2
  rest := by
    intro k' hk'
    obtain ⟨hne, hk'⟩ := Finset.mem_erase.mp hk'
    refine (ha.rest hk').imp id ?_
    rintro ⟨j, hj⟩
    refine ⟨j, ?_⟩
    rw [Function.update_of_ne, hj]
    rintro rfl
    rw [hi] at hj
    exact hne (Option.some.inj hj).symm
  lost_live := by
    intro k' hk'
    refine Finset.mem_erase.mpr ⟨?_, ha.lost_live hk'⟩
    rintro rfl
    exact ha.apart hi hk'
  apart := fun hj => ha.apart (update_none hj).2

theorem use (ha : h.Accounted held lost) (hi : held i = some k) : (h.use k).Accounted held lost where
  unused := by simp [Handles.use, ha.unused, ha.live hi]
  live := ha.live
  own := ha.own
  rest := ha.rest
  lost_live := ha.lost_live
  apart := ha.apart

/-- A holder goes away without closing its handle. -/
theorem lose [DecidableEq ι] (ha : h.Accounted held lost) (hi : held i = some k) :
    h.Accounted (Function.update held i none) (insert k lost) where
  unused := ha.unused
  live := fun hj => ha.live (update_none hj).2
  own := fun hj hj' => ha.own (update_none hj).2 (update_none hj').2
  rest := by
    intro k' hk'
    rcases ha.rest hk' with hlost | ⟨j, hj⟩
    · exact .inl (Finset.mem_insert_of_mem hlost)
    · by_cases hji : j = i
      · subst hji
        rw [hi] at hj
        rw [← Option.some.inj hj]
        exact .inl (Finset.mem_insert_self _ _)
      · exact .inr ⟨j, by rw [Function.update_of_ne hji, hj]⟩
  lost_live := Finset.insert_subset (ha.live hi) ha.lost_live
  apart := by
    intro j k' hj
    obtain ⟨hji, hj⟩ := update_none hj
    rw [Finset.mem_insert, not_or]
    refine ⟨?_, ha.apart hj⟩
    rintro rfl
    exact hji (ha.own hj hi)

/-- When nobody holds a handle, those that are open are lost. -/
theorem live_eq_lost (ha : h.Accounted held lost) (hnone : ∀ i, held i = none) : h.live = lost := by
  refine Finset.Subset.antisymm (fun k hk => (ha.rest hk).resolve_right ?_) ha.lost_live
  rintro ⟨i, hi⟩
  rw [hnone] at hi
  cases hi

end Accounted

/-- A handle was used after it was closed, or still can be. -/
def Dangles (h : Handles) (held : ι → Option Nat) : Prop :=
  h.misused = true ∨ ∃ i k, held i = some k ∧ k ∉ h.live ∧ k < h.next

namespace Dangles

variable {h : Handles} {held : ι → Option Nat} {i : ι} {k : Nat}

/-- A handle that is closed and kept. -/
theorem of_release (hi : held i = some k) (hk : k < h.next) : (h.release k).Dangles held :=
  .inr ⟨i, k, hi, Finset.notMem_erase _ _, hk⟩

theorem acquire [DecidableEq ι] (hd : h.Dangles held) (hi : held i = none) :
    h.acquire.Dangles (Function.update held i (some h.next)) := by
  rcases hd with hm | ⟨j, k, hj, hk, hlt⟩
  · exact .inl hm
  · refine .inr ⟨j, k, ?_, ?_, hlt.trans (Nat.lt_succ_self _)⟩
    · rw [Function.update_of_ne, hj]
      rintro rfl
      rw [hi] at hj
      cases hj
    · intro hmem
      rcases Finset.mem_insert.mp hmem with rfl | hmem
      · exact Nat.lt_irrefl _ hlt
      · exact hk hmem

theorem use (hd : h.Dangles held) (k : Nat) : (h.use k).Dangles held := by
  rcases hd with hm | hrest
  · exact .inl (by simp [Handles.use, hm])
  · exact .inr hrest

theorem release_kept (hd : h.Dangles held) (k : Nat) : (h.release k).Dangles held := by
  rcases hd with hm | ⟨j, k', hj, hk', hlt⟩
  · exact .inl (by simp [Handles.release, hm])
  · exact .inr ⟨j, k', hj, fun hmem => hk' (Finset.mem_of_mem_erase hmem), hlt⟩

/-- Closing any handle does not mend it. -/
theorem release [DecidableEq ι] (hd : h.Dangles held) (hi : held i = some k) :
    (h.release k).Dangles (Function.update held i none) := by
  rcases hd with hm | ⟨j, k', hj, hk', hlt⟩
  · exact .inl (by simp [Handles.release, hm])
  · by_cases hji : j = i
    · subst hji
      rw [hi] at hj
      obtain rfl := Option.some.inj hj
      exact .inl (by simp [Handles.release, hk'])
    · refine .inr ⟨j, k', ?_, fun hmem => hk' (Finset.mem_of_mem_erase hmem), hlt⟩
      rw [Function.update_of_ne hji, hj]

theorem misused_of_none (hd : h.Dangles held) (hnone : ∀ i, held i = none) : h.misused = true := by
  rcases hd with hm | ⟨i, k, hi, _, _⟩
  · exact hm
  · rw [hnone] at hi
    cases hi

end Dangles

end Handles

end JitDt
