import Mathlib

/-!
# Mailboxes that hold one message each

Messages are numbered in the order they are sent. A place holds at most one message;
sending to an occupied place overwrites what is there, and a message that is taken is
gone. That no message is taken twice is part of the type.
-/

namespace JitDt

set_option autoImplicit false

universe u

structure Mailboxes (F : Type u) where
  cell : F → Option Nat
  sent : Nat
  /-- The messages taken so far, in the order they were taken. -/
  taken : List Nat
  cell_lt : ∀ f k, cell f = some k → k < sent
  cell_fresh : ∀ f k, cell f = some k → k ∉ taken
  cell_inj : ∀ f g k, cell f = some k → cell g = some k → f = g
  taken_lt : ∀ k ∈ taken, k < sent
  nodup : taken.Nodup

namespace Mailboxes

variable {F : Type u} [DecidableEq F]

def empty : Mailboxes F where
  cell := fun _ => none
  sent := 0
  taken := []
  cell_lt := by simp
  cell_fresh := by simp
  cell_inj := by simp
  taken_lt := by simp
  nodup := List.nodup_nil

def send (m : Mailboxes F) (f : F) : Mailboxes F where
  cell := Function.update m.cell f (some m.sent)
  sent := m.sent + 1
  taken := m.taken
  cell_lt := by
    intro g k hg
    by_cases h : g = f
    · subst h
      simp only [Function.update_self, Option.some.injEq] at hg
      omega
    · rw [Function.update_of_ne h] at hg
      have := m.cell_lt g k hg
      omega
  cell_fresh := by
    intro g k hg
    by_cases h : g = f
    · subst h
      simp only [Function.update_self, Option.some.injEq] at hg
      exact fun hk => absurd (m.taken_lt k hk) (by omega)
    · rw [Function.update_of_ne h] at hg
      exact m.cell_fresh g k hg
  cell_inj := by
    intro g g' k hg hg'
    by_cases h : g = f
    · by_cases h' : g' = f
      · rw [h, h']
      · rw [h, Function.update_self, Option.some.injEq] at hg
        rw [Function.update_of_ne h'] at hg'
        exact absurd (m.cell_lt g' k hg') (by omega)
    · rw [Function.update_of_ne h] at hg
      by_cases h' : g' = f
      · rw [h', Function.update_self, Option.some.injEq] at hg'
        exact absurd (m.cell_lt g k hg) (by omega)
      · rw [Function.update_of_ne h'] at hg'
        exact m.cell_inj g g' k hg hg'
  taken_lt := fun k hk => Nat.lt_succ_of_lt (m.taken_lt k hk)
  nodup := m.nodup

def discard (m : Mailboxes F) (f : F) : Mailboxes F where
  cell := Function.update m.cell f none
  sent := m.sent
  taken := m.taken
  cell_lt := by
    intro g k hg
    by_cases h : g = f
    · simp [h] at hg
    · rw [Function.update_of_ne h] at hg
      exact m.cell_lt g k hg
  cell_fresh := by
    intro g k hg
    by_cases h : g = f
    · simp [h] at hg
    · rw [Function.update_of_ne h] at hg
      exact m.cell_fresh g k hg
  cell_inj := by
    intro g g' k hg hg'
    by_cases h : g = f
    · simp [h] at hg
    by_cases h' : g' = f
    · simp [h'] at hg'
    rw [Function.update_of_ne h] at hg
    rw [Function.update_of_ne h'] at hg'
    exact m.cell_inj g g' k hg hg'
  taken_lt := m.taken_lt
  nodup := m.nodup

def take (m : Mailboxes F) (f : F) (k : Nat) (h : m.cell f = some k) : Mailboxes F where
  cell := Function.update m.cell f none
  sent := m.sent
  taken := m.taken ++ [k]
  cell_lt := (m.discard f).cell_lt
  cell_fresh := by
    intro g j hg hmem
    by_cases hgf : g = f
    · simp [hgf] at hg
    rw [Function.update_of_ne hgf] at hg
    rcases List.mem_append.mp hmem with hold | hnew
    · exact m.cell_fresh g j hg hold
    · obtain rfl : j = k := by simpa using hnew
      exact hgf (m.cell_inj g f j hg h)
  cell_inj := (m.discard f).cell_inj
  taken_lt := by
    intro j hj
    rcases List.mem_append.mp hj with hold | hnew
    · exact m.taken_lt j hold
    · obtain rfl : j = k := by simpa using hnew
      exact m.cell_lt f j h
  nodup := List.nodup_append.mpr ⟨m.nodup, List.nodup_singleton k, by
    rintro a ha b hb rfl
    obtain rfl : a = k := by simpa using hb
    exact m.cell_fresh f a h ha⟩

@[simp] theorem send_cell_self (m : Mailboxes F) (f : F) : (m.send f).cell f = some m.sent :=
  Function.update_self ..

theorem send_cell_other (m : Mailboxes F) {f g : F} (h : g ≠ f) :
    (m.send f).cell g = m.cell g := Function.update_of_ne h ..

@[simp] theorem send_sent (m : Mailboxes F) (f : F) : (m.send f).sent = m.sent + 1 := rfl

@[simp] theorem send_taken (m : Mailboxes F) (f : F) : (m.send f).taken = m.taken := rfl

@[simp] theorem discard_cell_self (m : Mailboxes F) (f : F) : (m.discard f).cell f = none :=
  Function.update_self ..

@[simp] theorem discard_taken (m : Mailboxes F) (f : F) : (m.discard f).taken = m.taken := rfl

theorem discard_cell_other (m : Mailboxes F) {f g : F} (h : g ≠ f) :
    (m.discard f).cell g = m.cell g := Function.update_of_ne h ..

@[simp] theorem take_cell_self (m : Mailboxes F) (f : F) (k : Nat) (h : m.cell f = some k) :
    (m.take f k h).cell f = none := Function.update_self ..

theorem take_cell_other (m : Mailboxes F) {f g : F} {k : Nat} (h : m.cell f = some k)
    (hg : g ≠ f) : (m.take f k h).cell g = m.cell g := Function.update_of_ne hg ..

@[simp] theorem take_taken (m : Mailboxes F) (f : F) (k : Nat) (h : m.cell f = some k) :
    (m.take f k h).taken = m.taken ++ [k] := rfl

/-! ## Two places used in turn -/

/-- The order in which messages are taken, when they are sent to two places in turn and
the next one will go to place `n`: the other place is ahead of everything taken, and as
long as it holds a message so is place `n`, which holds an older one. -/
structure InTurn (m : Mailboxes Bool) (n : Bool) : Prop where
  ordered : m.taken.Pairwise (· < ·)
  other : ∀ k, m.cell (!n) = some k → ∀ t ∈ m.taken, t < k
  older : ∀ k j, m.cell n = some k → m.cell (!n) = some j → k < j ∧ ∀ t ∈ m.taken, t < k

theorem inTurn_empty (n : Bool) : InTurn empty n := ⟨List.Pairwise.nil, by simp [empty], by simp [empty]⟩

variable {m : Mailboxes Bool} {n : Bool}

theorem pairwise_snoc {l : List Nat} {k : Nat} (h : l.Pairwise (· < ·)) (hk : ∀ t ∈ l, t < k) :
    (l ++ [k]).Pairwise (· < ·) :=
  List.pairwise_append.mpr ⟨h, List.pairwise_singleton _ _, by
    intro a ha b hb
    rw [List.mem_singleton.mp hb]
    exact hk a ha⟩

theorem InTurn.send (h : InTurn m n) : InTurn (m.send n) (!n) where
  ordered := h.ordered
  other := by
    intro k hk t ht
    rw [Bool.not_not, send_cell_self, Option.some.injEq] at hk
    rw [← hk]
    exact m.taken_lt t ht
  older := by
    intro k j hk hj
    rw [send_cell_other m (by simp)] at hk
    rw [Bool.not_not, send_cell_self, Option.some.injEq] at hj
    rw [← hj]
    exact ⟨m.cell_lt _ k hk, h.other k hk⟩

theorem InTurn.discard (h : InTurn m n) (f : Bool) : InTurn (m.discard f) n where
  ordered := h.ordered
  other := by
    intro k hk
    by_cases hf : (!n) = f
    · simp [← hf] at hk
    · rw [discard_cell_other m hf] at hk
      exact h.other k hk
  older := by
    intro k j hk hj
    by_cases hf : n = f
    · simp [← hf] at hk
    by_cases hf' : (!n) = f
    · simp [← hf'] at hj
    rw [discard_cell_other m hf] at hk
    rw [discard_cell_other m hf'] at hj
    exact h.older k j hk hj

/-- Taking the newer message, or the older one before the newer one, keeps the order. -/
theorem InTurn.take (h : InTurn m n) {f : Bool} {k : Nat} (hk : m.cell f = some k)
    (hother : f = n → m.cell (!n) ≠ none) : InTurn (m.take f k hk) n := by
  by_cases hf : f = n
  · subst hf
    obtain ⟨j, hj⟩ := Option.ne_none_iff_exists'.mp (hother rfl)
    obtain ⟨hkj, hall⟩ := h.older k j hk hj
    refine ⟨pairwise_snoc h.ordered hall, ?_, ?_⟩
    · intro i hi t ht
      rw [take_cell_other m hk (by simp), hj, Option.some.injEq] at hi
      rcases List.mem_append.mp ht with hold | hnew
      · exact hi ▸ h.other j hj t hold
      · rw [List.mem_singleton.mp hnew]
        omega
    · intro i j' hi
      simp at hi
  · have hf' : f = !n := by cases f <;> cases n <;> simp_all
    subst hf'
    refine ⟨pairwise_snoc h.ordered (h.other k hk), ?_, ?_⟩
    · intro i hi
      simp at hi
    · intro i j _ hj
      simp at hj

end Mailboxes

end JitDt
