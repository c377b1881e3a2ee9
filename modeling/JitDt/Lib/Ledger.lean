import Mathlib.Data.Set.Basic
import Mathlib.Logic.Function.Basic

/-!
# Items kept in places

Every live item stands in exactly one place. Items are put into places, over what stands
there, and places are cleared; the lemmas say which of these steps keep the account.
-/

namespace JitDt.Ledger

set_option autoImplicit false

universe u v
variable {ι : Type u} {α : Type v} {live live' : Set α} {place place' : ι → Option α}

def Accounted (live : Set α) (place : ι → Option α) : Prop :=
  ∀ p ∈ live, ∃! i, place i = some p

theorem Accounted.mono (h : Accounted live place) (hl : live' ⊆ live) : Accounted live' place :=
  fun p hp => h p (hl hp)

/-- Places are emptied, and what stood there is no longer live. -/
theorem Accounted.clear (h : Accounted live place) (hl : live' ⊆ live)
    (hplace : ∀ i p, place' i = some p → place i = some p)
    (hkeep : ∀ i, ∀ p ∈ live', place i = some p → place' i = some p) : Accounted live' place' := by
  intro p hp
  obtain ⟨i, hi, huniq⟩ := h p (hl hp)
  exact ⟨i, hkeep i p hp hi, fun j hj => huniq j (hplace j p hj)⟩

/-- No live item other than `p` stands in place `i`. -/
def Free (live : Set α) (place : ι → Option α) (i : ι) (p : α) : Prop :=
  ∀ q, place i = some q → q = p ∨ q ∉ live

/-- `p` stands nowhere but perhaps in place `i`. -/
def OnlyAt (place : ι → Option α) (i : ι) (p : α) : Prop := ∀ j, place j = some p → j = i

variable {i : ι} {p : α}

theorem Free.of_none (h : place i = none) : Free live place i p := by
  intro q hq
  rw [h] at hq
  cases hq

theorem free_congr (hl : ∀ q, q ≠ p → (q ∈ live' ↔ q ∈ live)) :
    Free live' place i p ↔ Free live place i p := by
  have hor : ∀ q, (q = p ∨ q ∉ live') ↔ (q = p ∨ q ∉ live) := by
    intro q
    by_cases hq : q = p
    · exact iff_of_true (Or.inl hq) (Or.inl hq)
    · rw [hl q hq]
  exact forall_congr' fun q => imp_congr_right fun _ => hor q

/-- Another item that becomes live, or stops to be, and is put nowhere. -/
theorem accounted_insert_iff (h : Accounted live place) (hl : ∀ q, q ≠ p → (q ∈ live' ↔ q ∈ live)) :
    Accounted live' place ↔ (p ∈ live' → ∃! i, place i = some p) := by
  constructor
  · exact fun hacc => hacc p
  · intro hp q hq
    by_cases hqp : q = p
    · subst hqp
      exact hp hq
    · exact h q ((hl q hqp).mp hq)

/-- Putting `p` into place `i` keeps the account exactly when nothing live is overwritten
and `p` stands nowhere else. -/
theorem accounted_put_iff [DecidableEq ι] (h : Accounted live place)
    (hl : ∀ q, q ≠ p → (q ∈ live' ↔ q ∈ live)) :
    Accounted live' (Function.update place i (some p)) ↔
      Free live place i p ∧ (p ∈ live' → OnlyAt place i p) := by
  have hother : ∀ {j q}, j ≠ i → (Function.update place i (some p) j = some q ↔ place j = some q) := by
    intro j q hj
    rw [Function.update_of_ne hj]
  have hself : ∀ {q}, Function.update place i (some p) i = some q ↔ p = q := by
    intro q
    rw [Function.update_self, Option.some.injEq]
  constructor
  · intro hacc
    constructor
    · intro q hq
      by_contra hcon
      rw [not_or, not_not] at hcon
      -- the only place of `q` is overwritten
      obtain ⟨j, hj, _⟩ := hacc q ((hl q hcon.1).mpr hcon.2)
      by_cases hji : j = i
      · subst hji
        exact hcon.1 (hself.mp hj).symm
      · exact hji ((h q hcon.2).unique ((hother hji).mp hj) hq)
    · intro hp j hj
      by_contra hji
      exact hji ((hacc p hp).unique ((hother hji).mpr hj) (hself.mpr rfl))
  · rintro ⟨hfree, honly⟩ q hq
    by_cases hqp : q = p
    · subst hqp
      refine ⟨i, hself.mpr rfl, fun j hj => ?_⟩
      by_contra hji
      exact hji (honly hq j ((hother hji).mp hj))
    · have hlive := (hl q hqp).mp hq
      obtain ⟨j, hj, huniq⟩ := h q hlive
      have hji : j ≠ i := by
        rintro rfl
        rcases hfree q hj with heq | hdead
        · exact hqp heq
        · exact hdead hlive
      refine ⟨j, (hother hji).mpr hj, fun k hk => ?_⟩
      by_cases hki : k = i
      · subst hki
        exact absurd (hself.mp hk).symm hqp
      · exact huniq k ((hother hki).mp hk)

end JitDt.Ledger
