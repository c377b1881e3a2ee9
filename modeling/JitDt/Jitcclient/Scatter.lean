import JitDt.Jitcclient.Wire

/-!
# How the client distributes the payload

The client advances its data pointer by the requested sizes and the stream by the
received ones. `offset size i` is where region `i` starts; no region receives more
than was requested, so the regions do not overlap.
-/

namespace JitDt.Jitcclient

set_option autoImplicit false

/-- Where the client stores entry `i`: behind everything requested before it. -/
def offset (size : Nat → Int32) (i : Nat) : Int := ∑ j ∈ Finset.range i, (size j).toInt

@[simp] theorem offset_zero (size : Nat → Int32) : offset size 0 = 0 := rfl

theorem offset_succ (size : Nat → Int32) (i : Nat) :
    offset size (i + 1) = offset size i + (size i).toInt := Finset.sum_range_succ _ i

theorem offset_mono {size : Nat → Int32} {i j n : Nat} (hpos : ∀ u < n, 0 ≤ (size u).toInt)
    (hij : i ≤ j) (hj : j ≤ n) : offset size i ≤ offset size j := by
  induction j, hij using Nat.le_induction with
  | base => exact le_refl _
  | succ j _ ih =>
    have hj' := hpos j (by omega)
    have := ih (by omega)
    rw [offset_succ]
    omega

theorem offset_le {size : Nat → Int32} {i j n : Nat} (hpos : ∀ u < n, 0 < (size u).toInt)
    (hij : i ≤ j) (hj : j ≤ n) : offset size i ≤ offset size j :=
  offset_mono (fun u hu => (hpos u hu).le) hij hj

theorem offset_nonneg {size : Nat → Int32} {i n : Nat} (hpos : ∀ u < n, 0 < (size u).toInt)
    (hi : i ≤ n) : 0 ≤ offset size i := offset_le hpos (Nat.zero_le i) hi

theorem toInt_add_of_lt {a b : Int32} (ha : 0 ≤ a.toInt) (hb : 0 ≤ b.toInt)
    (hlt : a.toInt + b.toInt < 2 ^ 31) : (a + b).toInt = a.toInt + b.toInt := by
  rw [Int32.toInt_add]
  exact Int.bmod_eq_of_le_mul_two (by omega) (by omega)

def payloadFrom (chunk : Fin transoptSize → List UInt8) (n i : Nat) : List UInt8 :=
  (((List.finRange transoptSize).take n).drop i).flatMap chunk

theorem payloadFrom_cons (chunk : Fin transoptSize → List UInt8) {n i : Nat}
    (hi : i < transoptSize) (hn : i < n) :
    payloadFrom chunk n i = chunk ⟨i, hi⟩ ++ payloadFrom chunk n (i + 1) := by
  have hlen : i < ((List.finRange transoptSize).take n).length := by
    rw [List.length_take, List.length_finRange]
    omega
  unfold payloadFrom
  rw [List.drop_eq_getElem_cons hlen, List.flatMap_cons]
  congr 2
  simp

theorem payloadFrom_end (chunk : Fin transoptSize → List UInt8) {n i : Nat} (hi : n ≤ i) :
    payloadFrom chunk n i = [] := by
  have hlen : ((List.finRange transoptSize).take n).length ≤ i := by
    rw [List.length_take]
    omega
  rw [payloadFrom, List.drop_eq_nil_of_le hlen]
  rfl

theorem sizeT_of_nonneg {x : Int32} (h : 0 ≤ x.toInt) : sizeT x = x.toInt.toNat := by
  have hlt := x.toInt_lt
  unfold sizeT
  rw [Int.emod_eq_of_lt h (by omega)]

/-- What the header announces and the stream holds fits what was requested. -/
structure Announced (size : Nat → Int32) (opt : Opt) (chunk : Fin transoptSize → List UInt8)
    (n : Nat) : Prop where
  le : n ≤ transoptSize
  pos : ∀ i < n, 0 < (size i).toInt
  sum : offset size n < 2 ^ 31
  opt : ∀ i : Fin transoptSize, i.val < n → (opt i).toInt = (chunk i).length
  short : ∀ i : Fin transoptSize, i.val < n → ((chunk i).length : Int) ≤ (size i.val).toInt

/-- The loop over the entries `i .. n - 1` takes exactly their bytes from the stream and
puts each at its offset, leaving all other memory alone. -/
theorem jitgetEntries_scatter {size₀ size : Nat → Int32} {opt : Opt}
    {chunk : Fin transoptSize → List UInt8} {n k i fuel : Nat} {ptr : Int32} {m : Memory}
    {s : Source} {rest : List UInt8} (hA : Announced size₀ opt chunk n) (hk : i + k = n)
    (hfuel : 2 ^ 31 < fuel) (hsize : ∀ j, i ≤ j → j < n → size j = size₀ j)
    (hptr : ptr.toInt = offset size₀ i) (hpend : s.pending = payloadFrom chunk n i ++ rest) :
    ∃ m' size' s', jitgetEntries fuel opt k i ptr m size s = some ((m', size'), s') ∧
      s'.pending = rest ∧
      (∀ j : Fin transoptSize, i ≤ j.val → j.val < n → size' j.val = opt j ∧
        m'.read (offset size₀ j.val) (chunk j).length = chunk j) ∧
      (∀ j, j < i → size' j = size j) ∧
      ∀ a, (∀ j : Fin transoptSize, i ≤ j.val → j.val < n →
        a < offset size₀ j.val ∨ offset size₀ j.val + (chunk j).length ≤ a) → m' a = m a := by
  induction k generalizing i ptr m size s with
  | zero =>
    obtain rfl : i = n := by omega
    refine ⟨m, size, s, rfl, ?_, fun j _ _ => by omega, fun _ _ => rfl, fun _ _ => rfl⟩
    rw [hpend, payloadFrom_end chunk (le_refl _), List.nil_append]
  | succ k ih =>
    have hle := hA.le
    have hi : i < transoptSize := by omega
    have hin : i < n := by omega
    have hopt := hA.opt ⟨i, hi⟩ hin
    have hshort := hA.short ⟨i, hi⟩ hin
    have hposi := hA.pos i hin
    have hsizei := hsize i (le_refl i) hin
    have hlt := (size₀ i).toInt_lt
    simp only at hshort
    rw [payloadFrom_cons chunk hi hin, List.append_assoc] at hpend
    -- the region is read completely
    have hsz : sizeT (opt ⟨i, hi⟩) = (chunk ⟨i, hi⟩).length := by
      rw [sizeT_of_nonneg (by omega), hopt]
      simp
    have hfuel' : (chunk ⟨i, hi⟩).length < fuel := by omega
    have hmax : (chunk ⟨i, hi⟩).length ≤ intMax := by
      unfold intMax
      omega
    obtain ⟨s₁, hread, hs₁, _⟩ := netread_of_le (s := s) hmax hfuel'
      (by rw [hpend, List.length_append]; omega)
    rw [hpend, List.take_left' rfl] at hread
    rw [hpend, List.drop_left' rfl] at hs₁
    -- the next region starts behind what was requested
    have hnonneg : 0 ≤ offset size₀ i := offset_nonneg hA.pos hin.le
    have hnext : offset size₀ (i + 1) ≤ offset size₀ n := offset_le hA.pos hin (le_refl n)
    have hsum := hA.sum
    have hptr' : (ptr + size i).toInt = offset size₀ (i + 1) := by
      rw [offset_succ] at hnext ⊢
      rw [hsizei, toInt_add_of_lt (by omega) (by omega) (by omega), hptr]
    have hsize' : ∀ j, i + 1 ≤ j → j < n →
        Function.update size i (opt ⟨i, hi⟩) j = size₀ j := by
      intro j hij hj
      rw [Function.update_of_ne (by omega)]
      exact hsize j (by omega) hj
    obtain ⟨m', size', s', hloop, hrest, hregion, hbefore, hframe⟩ :=
      ih (m := m.write ptr.toInt (chunk ⟨i, hi⟩)) (by omega) hsize' hptr' hs₁
    refine ⟨m', size', s', ?_, hrest, ?_, ?_, ?_⟩
    · simp only [jitgetEntries, dif_pos hi, hsz, hread, Option.bind_eq_bind, Option.bind_some]
      exact hloop
    · intro j hij hj
      by_cases hji : j = ⟨i, hi⟩
      · subst hji
        refine ⟨by rw [hbefore i (by omega), Function.update_self], ?_⟩
        have hkeep : ∀ a, offset size₀ i ≤ a → a < offset size₀ i + (chunk ⟨i, hi⟩).length →
            m' a = (m.write ptr.toInt (chunk ⟨i, hi⟩)) a := by
          intro a _ ha
          refine hframe a fun u hu hun => Or.inl ?_
          have hmono := offset_le hA.pos hu hun.le
          rw [offset_succ] at hmono
          omega
        rw [Memory.read_congr hkeep, ← hptr, Memory.read_write]
      · have hne : j.val ≠ i := fun he => hji (Fin.ext he)
        exact hregion j (by omega) hj
    · intro j hj
      rw [hbefore j (by omega), Function.update_of_ne (by omega)]
    · intro a ha
      rw [hframe a fun u hu hun => ha u (by omega) hun]
      have hout := ha ⟨i, hi⟩ (le_refl i) hin
      rw [← hptr] at hout
      exact Memory.write_outside hout

end JitDt.Jitcclient
