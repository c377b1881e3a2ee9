import Mathlib

/-!
# Ring indices and absolute positions

A ring of `n` slots is walked by indices that are advanced modulo `n`. Numbering
the visits absolutely, position `a` lies in slot `a % n`; the index arithmetic of
a ring is then ordinary arithmetic on positions, and two positions share a slot
only when they are a whole turn apart.
-/

namespace JitDt.RingIndex

set_option autoImplicit false

variable {n a b k : Nat}

def next (n v : Nat) : Nat := (v + 1) % n

theorem next_mod (n a : Nat) : next n (a % n) = (a + 1) % n := by
  simp [next]

def prev (n v : Nat) : Nat := (if v = 0 then n else v) - 1

theorem prev_mod (hn : 0 < n) (a : Nat) : prev n ((a + 1) % n) = a % n := by
  have hr : a % n < n := Nat.mod_lt a hn
  unfold prev
  rw [← Nat.mod_add_mod]
  by_cases hend : a % n + 1 = n
  · rw [hend, Nat.mod_self, if_pos rfl]
    omega
  · rw [Nat.mod_eq_of_lt (by omega), if_neg (by omega)]
    omega

theorem mod_ne_of_lt (hab : a < b) (hturn : b < a + n) : a % n ≠ b % n := by
  intro h
  have hn : 0 < n := by omega
  have hdvd : n ∣ b - a := (Nat.modEq_iff_dvd' hab.le).mp h
  have := Nat.le_of_dvd (by omega) hdvd
  omega

/-- Of the last `n` positions up to `a`, one lies in slot `k`. -/
theorem exists_position (hk : k < n) (ha : n ≤ a) : ∃ c, c ≤ a ∧ a < c + n ∧ c % n = k := by
  have hr : (a - k) % n < n := Nat.mod_lt _ (by omega)
  have hdiv := Nat.div_add_mod (a - k) n
  refine ⟨a - (a - k) % n, by omega, by omega, ?_⟩
  have hc : a - (a - k) % n = k + n * ((a - k) / n) := by omega
  rw [hc, Nat.add_mul_mod_self_left, Nat.mod_eq_of_lt hk]

theorem window_mod (n a k : Nat) : (a % n + k) % n = (a + k) % n := Nat.mod_add_mod a n k

end JitDt.RingIndex
