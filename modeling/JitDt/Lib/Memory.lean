import Mathlib

/-!
# C strings and byte memory

A `CStr` is the text of a C string: its bytes without the terminating NUL. A
`Memory` maps every address around a pointer to a byte, so that a stray write in
front of a buffer is a write like any other.
-/

namespace JitDt

set_option autoImplicit false

structure CStr where
  bytes : List UInt8
  nul_free : (0 : UInt8) ∉ bytes
deriving DecidableEq

namespace CStr

@[ext] theorem ext {s t : CStr} (h : s.bytes = t.bytes) : s = t := by
  cases s
  cases t
  simp_all

def empty : CStr := ⟨[], by simp⟩

end CStr

/-- The bytes of a C string found in a buffer: everything before the first NUL. -/
def cstrOf (bs : List UInt8) : List UInt8 := bs.takeWhile (· ≠ 0)

theorem cstrOf_append {s t : List UInt8} (hs : (0 : UInt8) ∉ s) : cstrOf (s ++ t) = s ++ cstrOf t := by
  unfold cstrOf
  rw [List.takeWhile_append_of_pos]
  intro b hb
  simpa using fun h0 : b = 0 => hs (h0 ▸ hb)

theorem cstrOf_eq_self {s : List UInt8} (hs : (0 : UInt8) ∉ s) : cstrOf s = s := by
  have happend := cstrOf_append (t := []) hs
  rw [List.append_nil] at happend
  rw [happend]
  exact List.append_nil s

/-- A NUL written into a buffer ends its string there, unless it has ended before. -/
theorem cstrOf_set (b : List UInt8) (j : Nat) : cstrOf (b.set j 0) = (cstrOf b).take j := by
  induction b generalizing j with
  | nil => simp [cstrOf]
  | cons c b ih =>
    cases j with
    | zero => simp [cstrOf]
    | succ j =>
      by_cases hc : c = 0
      · simp [cstrOf, hc]
      · simpa [cstrOf, hc] using ih j

theorem cstrOf_drop {b : List UInt8} {j : Nat} (h : j ≤ (cstrOf b).length) :
    cstrOf (b.drop j) = (cstrOf b).drop j := by
  induction b generalizing j with
  | nil => simp [cstrOf]
  | cons c b ih =>
    cases j with
    | zero => simp
    | succ j =>
      by_cases hc : c = 0
      · simp [cstrOf, hc] at h
      · have hlen : j ≤ (cstrOf b).length := by simpa [cstrOf, hc] using h
        simpa [cstrOf, hc] using ih hlen

theorem take_cstrOf {b : List UInt8} {j : Nat} (h : j ≤ (cstrOf b).length) :
    (cstrOf b).take j = b.take j := by
  have hprefix : cstrOf b <+: b := List.takeWhile_prefix _
  obtain ⟨t, ht⟩ := hprefix
  calc (cstrOf b).take j = (cstrOf b ++ t).take j := (List.take_append_of_le_length h).symm
    _ = b.take j := by rw [ht]

theorem cstrOf_eq_nil_iff {b : List UInt8} : cstrOf b = [] ↔ b.headD 0 = 0 := by
  cases b with
  | nil => simp [cstrOf]
  | cons c b => simp [cstrOf, List.takeWhile_cons]

abbrev Memory := Int → UInt8

namespace Memory

variable {m : Memory} {p q : Int} {bs : List UInt8}

def write (m : Memory) (p : Int) (bs : List UInt8) : Memory := fun a =>
  if p ≤ a ∧ a < p + bs.length then bs.getD (a - p).toNat 0 else m a

def read (m : Memory) (p : Int) (n : Nat) : List UInt8 :=
  (List.range n).map fun k : Nat => m (p + (k : Int))

theorem write_inside {k : Nat} (hk : k < bs.length) : m.write p bs (p + k) = bs[k] := by
  have hin : p ≤ p + (k : Int) ∧ p + (k : Int) < p + bs.length := by omega
  simp [write, hin, hk]

theorem write_outside {a : Int} (h : a < p ∨ p + bs.length ≤ a) : m.write p bs a = m a := by
  have hout : ¬ (p ≤ a ∧ a < p + bs.length) := by omega
  simp [write, hout]

@[simp] theorem read_length (m : Memory) (p : Int) (n : Nat) : (m.read p n).length = n := by
  simp [read]

@[simp] theorem read_write (m : Memory) (p : Int) (bs : List UInt8) :
    (m.write p bs).read p bs.length = bs := by
  apply List.ext_getElem
  · simp
  · intro k hk hk'
    simp only [read, List.getElem_map, List.getElem_range]
    exact write_inside hk'

/-- The C string at `p`, if one of the next `n` bytes ends it. -/
def strAt (m : Memory) (p : Int) (n : Nat) : Option (List UInt8) :=
  if 0 ∈ m.read p n then some (cstrOf (m.read p n)) else none

theorem strAt_eq_none (hbs : (0 : UInt8) ∉ bs) (h : m.read p bs.length = bs) :
    m.strAt p bs.length = none := by
  unfold strAt
  rw [h, if_neg hbs]

/-- Writing back what is there changes nothing. -/
theorem write_read (m : Memory) (p : Int) (n : Nat) : m.write p (m.read p n) = m := by
  funext a
  by_cases ha : p ≤ a ∧ a < p + n
  · obtain ⟨k, rfl⟩ : ∃ k : Nat, a = p + k := ⟨(a - p).toNat, by omega⟩
    have hk : k < (m.read p n).length := by
      rw [read_length]
      omega
    rw [write_inside hk]
    simp [read]
  · refine write_outside ?_
    rw [read_length]
    omega

theorem read_add (m : Memory) (p : Int) (a b : Nat) :
    m.read p (a + b) = m.read p a ++ m.read (p + a) b := by
  simp only [read, List.range_add, List.map_append, List.map_map]
  congr 1
  apply List.map_congr_left
  intro k _
  simp only [Function.comp_apply, Nat.cast_add, add_assoc]

/-- A string that does not end itself ends where the memory behind it has a NUL. -/
theorem strAt_succ_iff (hbs : (0 : UInt8) ∉ bs) (h : m.read p bs.length = bs) :
    m.strAt p (bs.length + 1) = some bs ↔ m (p + bs.length) = 0 := by
  have hread : m.read p (bs.length + 1) = bs ++ [m (p + bs.length)] := by
    rw [read_add, h]
    simp [read]
  unfold strAt
  rw [hread]
  constructor
  · intro hstr
    by_contra hne
    rw [if_neg] at hstr
    · cases hstr
    · rw [List.mem_append, List.mem_singleton, not_or]
      exact ⟨hbs, fun h0 => hne h0.symm⟩
  · intro h0
    rw [h0, if_pos (by simp), cstrOf_append hbs]
    simp [cstrOf]

theorem read_congr {m m' : Memory} {n : Nat} (h : ∀ a, p ≤ a → a < p + n → m a = m' a) :
    m.read p n = m'.read p n := by
  apply List.map_congr_left
  intro k hk
  have hk' : k < n := List.mem_range.mp hk
  exact h _ (by omega) (by omega)

theorem read_write_disjoint {n : Nat} (h : q + n ≤ p ∨ p + bs.length ≤ q) :
    (m.write p bs).read q n = m.read q n := by
  apply List.map_congr_left
  intro k hk
  have hk' : k < n := List.mem_range.mp hk
  exact write_outside (by omega)

end Memory

end JitDt
