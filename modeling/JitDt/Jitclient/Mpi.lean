import JitDt.Jitcclient.Scatter

/-!
# The MPI build of `jitget`

Rank 0 runs `_jitget` with a copy of `bsize` and broadcasts the result, then the sizes,
then the regions one by one. The loop moves on to the next region only behind one that
is not empty, so an empty file that was asked for shifts all later regions and leaves
its `bsize` as requested. `MPI_Bcast` gives every rank the bytes of rank 0; `ptr` is an
`int`, and `none` its overflow.
-/

namespace JitDt.Jitclient

set_option autoImplicit false

open Jitcclient

/-- The variables of one process. -/
structure Rank where
  data : Memory
  bsize : Nat → Int32
  ptr : Int

/-- `MPI_COMM_WORLD`, with at least rank 0. -/
abbrev World (n : Nat) := Fin (n + 1) → Rank

def root (n : Nat) : Fin (n + 1) := 0

/-- What `_jitget` leaves behind on rank 0. -/
structure Got where
  cc : Int32
  rsize : Nat → Int32
  data : Memory

variable {n : Nat}

/-- `MPI_Bcast(data + ptr, count, MPI_BYTE, ROOT, ..)`. -/
def bcast (count : Nat) (w : World n) : World n := fun p =>
  { w p with data := (w p).data.write (w p).ptr ((w (root n)).data.read (w (root n)).ptr count) }

def advance (i : Nat) (size : Int32) (w : World n) : Option (World n) :=
  if ∀ p, (w p).ptr + ((w p).bsize i).toInt < 2 ^ 31 then
    some fun p =>
      { w p with
        ptr := (w p).ptr + ((w p).bsize i).toInt
        bsize := Function.update (w p).bsize i size }
  else none

/-- The loop from entry `i` on, `k` entries left. -/
def jitgetFrom (rsize : Nat → Int32) : Nat → Nat → World n → Option (World n)
  | 0, _, w => some w
  | k + 1, i, w =>
    if rsize i > 0 then do
      let w' ← advance i (rsize i) (bcast (rsize i).toInt.toNat w)
      jitgetFrom rsize k (i + 1) w'
    else jitgetFrom rsize k (i + 1) w

/-- The ranks when the broadcasts of the regions start. -/
def start (bsize : Nat → Int32) (data : Fin (n + 1) → Memory) (g : Got) : World n := fun p =>
  { data := if p = root n then g.data else data p
    bsize := bsize
    ptr := 0 }

/-- All ranks call `jitget` with the same `bsize`, rank `p` with the buffer `data p`. -/
def jitget (bsize : Nat → Int32) (entries : Nat) (data : Fin (n + 1) → Memory) (g : Got) :
    Option (Int32 × World n) :=
  if entries > transoptSize then
    some (-1, fun p => { data := data p, bsize := bsize, ptr := 0 })
  else do
    let w ← jitgetFrom g.rsize entries 0 (start bsize data g)
    some (g.cc, w)

/-- What the serial `jitget` would give this process: the sizes read, and the bytes of
every region where the requested sizes put it. -/
def Agrees (bsize : Nat → Int32) (entries : Nat) (g : Got) (r : Rank) : Prop :=
  ∀ i < entries, r.bsize i = g.rsize i ∧
    r.data.read (offset bsize i) (g.rsize i).toInt.toNat =
      g.data.read (offset bsize i) (g.rsize i).toInt.toNat

/-- No region received more than was requested. -/
def Within (bsize : Nat → Int32) (entries : Nat) (g : Got) : Prop :=
  ∀ i < entries, 0 ≤ (g.rsize i).toInt ∧ (g.rsize i).toInt ≤ (bsize i).toInt

/-! ## The loop -/

theorem int32_pos_iff {x : Int32} : x > 0 ↔ 0 < x.toInt := by
  rw [gt_iff_lt, Int32.lt_iff_toInt_lt]
  rfl

theorem int32_eq_zero_iff {x : Int32} : x = 0 ↔ x.toInt = 0 := by
  rw [← Int32.toInt_inj]
  rfl

/-- The ranks in front of entry `i`, while no empty region was skipped. -/
structure Loop (bsize : Nat → Int32) (g : Got) (i : Nat) (w : World n) : Prop where
  ptr : ∀ p, (w p).ptr = offset bsize i
  todo : ∀ p j, i ≤ j → (w p).bsize j = bsize j
  root : (w (root n)).data = g.data
  done : ∀ p, Agrees bsize i g (w p)

theorem advance_eq_some {i : Nat} {size : Int32} {w w' : World n} (h : advance i size w = some w') :
    (∀ p, (w p).ptr + ((w p).bsize i).toInt < 2 ^ 31) ∧
      ∀ p, (w' p).data = (w p).data ∧ (w' p).ptr = (w p).ptr + ((w p).bsize i).toInt ∧
        (w' p).bsize = Function.update (w p).bsize i size := by
  unfold advance at h
  split at h
  · rename_i hfit
    rw [← Option.some.inj h]
    exact ⟨hfit, fun p => ⟨rfl, rfl, rfl⟩⟩
  · cases h

theorem advance_total {i : Nat} (size : Int32) {w : World n}
    (h : ∀ p, (w p).ptr + ((w p).bsize i).toInt < 2 ^ 31) : ∃ w', advance i size w = some w' :=
  ⟨_, if_pos h⟩

theorem start_loop (bsize : Nat → Int32) (data : Fin (n + 1) → Memory) (g : Got) :
    Loop bsize g 0 (start bsize data g) where
  ptr := fun _ => rfl
  todo := fun _ _ _ => rfl
  root := by simp [start]
  done := fun _ _ hi => absurd hi (Nat.not_lt_zero _)

/-- A region that is not empty is broadcast, and none of those before it is touched. -/
theorem Loop.advance {bsize : Nat → Int32} {g : Got} {entries i : Nat} {w w' : World n}
    (h : Loop bsize g i w) (hg : Within bsize entries g) (hi : i < entries)
    (hw : Jitclient.advance i (g.rsize i) (bcast (g.rsize i).toInt.toNat w) = some w') :
    Loop bsize g (i + 1) w' := by
  obtain ⟨_, hw'⟩ := advance_eq_some hw
  have hpos : ∀ u < entries, 0 ≤ (bsize u).toInt := fun u hu => (hg u hu).1.trans (hg u hu).2
  have hdata : ∀ p, (w' p).data = (w p).data.write (offset bsize i)
      (g.data.read (offset bsize i) (g.rsize i).toInt.toNat) := by
    intro p
    rw [(hw' p).1]
    show (w p).data.write (w p).ptr _ = _
    rw [h.ptr, h.ptr, h.root]
  constructor
  · intro p
    rw [(hw' p).2.1, offset_succ]
    show (w p).ptr + ((w p).bsize i).toInt = _
    rw [h.ptr, h.todo p i (le_refl i)]
  · intro p j hj
    rw [(hw' p).2.2, Function.update_of_ne (by omega)]
    exact h.todo p j (by omega)
  · rw [hdata, h.root, Memory.write_read]
  · intro p j hj
    rw [(hw' p).2.2, hdata]
    rcases Nat.lt_succ_iff_lt_or_eq.mp hj with hlt | rfl
    · rw [Function.update_of_ne (by omega)]
      obtain ⟨hsize, hread⟩ := h.done p j hlt
      refine ⟨hsize, ?_⟩
      have hend := offset_mono hpos (Nat.succ_le_of_lt hlt) hi.le
      obtain ⟨hlo, hhi⟩ := hg j (by omega)
      rw [offset_succ] at hend
      rw [Memory.read_write_disjoint (Or.inl (by omega)), hread]
    · rw [Function.update_self]
      refine ⟨rfl, ?_⟩
      have hread := Memory.read_write (w p).data (offset bsize j)
        (g.data.read (offset bsize j) (g.rsize j).toInt.toNat)
      rwa [Memory.read_length] at hread

/-- An empty region that was not asked for changes nothing. -/
theorem Loop.skip {bsize : Nat → Int32} {g : Got} {i : Nat} {w : World n} (h : Loop bsize g i w)
    (hr : g.rsize i = 0) (hb : bsize i = 0) : Loop bsize g (i + 1) w where
  ptr := by
    intro p
    rw [h.ptr, offset_succ, hb]
    exact (add_zero _).symm
  todo := fun p j hj => h.todo p j (by omega)
  root := h.root
  done := by
    intro p j hj
    rcases Nat.lt_succ_iff_lt_or_eq.mp hj with hlt | rfl
    · exact h.done p j hlt
    · rw [h.todo p j (le_refl j), hb, hr]
      exact ⟨rfl, rfl⟩

/-- Every empty region had size zero in the request. -/
def NoneEmpty (bsize : Nat → Int32) (entries : Nat) (g : Got) : Prop :=
  ∀ i < entries, g.rsize i = 0 → bsize i = 0

theorem jitgetFrom_agrees {bsize : Nat → Int32} {g : Got} {entries : Nat}
    (hg : Within bsize entries g) (hne : NoneEmpty bsize entries g)
    (hsum : offset bsize entries < 2 ^ 31) {k i : Nat} {w : World n} (hk : i + k = entries)
    (h : Loop bsize g i w) :
    ∃ w', jitgetFrom g.rsize k i w = some w' ∧ Loop bsize g entries w' := by
  induction k generalizing i w with
  | zero =>
    obtain rfl : i = entries := by omega
    exact ⟨w, rfl, h⟩
  | succ k ih =>
    have hi : i < entries := by omega
    have hpos : ∀ u < entries, 0 ≤ (bsize u).toInt := fun u hu => (hg u hu).1.trans (hg u hu).2
    by_cases hr : g.rsize i > 0
    · have hfit : ∀ p, ((bcast (g.rsize i).toInt.toNat w) p).ptr +
          (((bcast (g.rsize i).toInt.toNat w) p).bsize i).toInt < 2 ^ 31 := by
        intro p
        show (w p).ptr + ((w p).bsize i).toInt < 2 ^ 31
        have hnext := offset_mono hpos (Nat.succ_le_of_lt hi) (le_refl entries)
        rw [offset_succ] at hnext
        rw [h.ptr, h.todo p i (le_refl i)]
        omega
      obtain ⟨w₁, hw₁⟩ := advance_total (g.rsize i) hfit
      simp only [jitgetFrom, if_pos hr, hw₁, Option.bind_eq_bind, Option.bind_some]
      exact ih (by omega) (h.advance hg hi hw₁)
    · have hzero : g.rsize i = 0 := by
        have hlo := (hg i hi).1
        rw [int32_pos_iff] at hr
        rw [int32_eq_zero_iff]
        omega
      simp only [jitgetFrom, if_neg hr]
      exact ih (by omega) (h.skip hzero (hne i hi hzero))

/-! ## What the loop leaves alone -/

theorem jitgetFrom_bsize {rsize : Nat → Int32} {k i j : Nat} {w w' : World n}
    (h : jitgetFrom rsize k i w = some w') (hj : rsize j = 0) (p : Fin (n + 1)) :
    (w' p).bsize j = (w p).bsize j := by
  induction k generalizing i w with
  | zero =>
    obtain rfl : w = w' := Option.some.inj h
    rfl
  | succ k ih =>
    unfold jitgetFrom at h
    split at h
    · rename_i hr
      obtain ⟨w₁, hw₁, h⟩ := Option.bind_eq_some_iff.mp h
      have hji : j ≠ i := by
        rintro rfl
        rw [hj] at hr
        exact absurd hr (by decide)
      rw [ih h, ((advance_eq_some hw₁).2 p).2.2, Function.update_of_ne hji]
      rfl
    · exact ih h

/-- Where `ptr` ends when the skipped entries asked for nothing. -/
theorem jitgetFrom_ptr {bsize : Nat → Int32} {g : Got} {entries : Nat}
    (hg : Within bsize entries g) (hne : NoneEmpty bsize entries g) {k i : Nat} {w w' : World n}
    (hk : i + k = entries) (h : Loop bsize g i w) (hptr : ∀ p, (w p).ptr < 2 ^ 31)
    (hw : jitgetFrom g.rsize k i w = some w') : offset bsize entries < 2 ^ 31 := by
  induction k generalizing i w with
  | zero =>
    obtain rfl : i = entries := by omega
    rw [← h.ptr (root n)]
    exact hptr _
  | succ k ih =>
    have hi : i < entries := by omega
    unfold jitgetFrom at hw
    split at hw
    · obtain ⟨w₁, hw₁, hw⟩ := Option.bind_eq_some_iff.mp hw
      obtain ⟨hfit, hnext⟩ := advance_eq_some hw₁
      refine ih (by omega) (h.advance hg hi hw₁) ?_ hw
      intro p
      rw [(hnext p).2.1]
      exact hfit p
    · rename_i hr
      have hzero : g.rsize i = 0 := by
        have hlo := (hg i hi).1
        rw [int32_pos_iff] at hr
        rw [int32_eq_zero_iff]
        omega
      exact ih (by omega) (h.skip hzero (hne i hi hzero)) hptr hw

theorem jitget_eq {bsize : Nat → Int32} {entries : Nat} {data : Fin (n + 1) → Memory} {g : Got}
    (hent : entries ≤ transoptSize) : jitget bsize entries data g =
      (jitgetFrom g.rsize entries 0 (start bsize data g)).map fun w => (g.cc, w) := by
  unfold jitget
  rw [if_neg (by omega)]
  cases jitgetFrom g.rsize entries 0 (start bsize data g) <;> rfl

/-- The MPI build gives every rank the sizes and the regions of the serial build if and
only if every entry that turned out empty was requested with size zero, and the
requested sizes add up to an `int`. -/
theorem mpi_jitget_agrees_iff {entries : Nat} (hent : entries ≤ transoptSize)
    {bsize : Nat → Int32} (data : Fin (n + 1) → Memory) {g : Got}
    (hg : Within bsize entries g) :
    (∃ w, jitget bsize entries data g = some (g.cc, w) ∧ ∀ p, Agrees bsize entries g (w p)) ↔
      NoneEmpty bsize entries g ∧ offset bsize entries < 2 ^ 31 := by
  have hstart := start_loop bsize data g
  rw [jitget_eq hent]
  constructor
  · rintro ⟨w, hw, hagree⟩
    obtain ⟨w', hrun, hw'⟩ := Option.map_eq_some_iff.mp hw
    obtain rfl : w' = w := (Prod.mk.inj hw').2
    have hne : NoneEmpty bsize entries g := by
      intro i hi hr
      have hsame := jitgetFrom_bsize hrun hr (root n)
      rw [(hagree (root n) i hi).1, hr] at hsame
      exact hsame.symm
    have hzero : ∀ p, (start bsize data g p).ptr < 2 ^ 31 := fun _ => show (0 : Int) < 2 ^ 31 by decide
    exact ⟨hne, jitgetFrom_ptr hg hne (Nat.zero_add _) hstart hzero hrun⟩
  · rintro ⟨hne, hsum⟩
    obtain ⟨w, hrun, hloop⟩ := jitgetFrom_agrees hg hne hsum (Nat.zero_add _) hstart
    exact ⟨w, Option.map_eq_some_iff.mpr ⟨w, hrun, rfl⟩, hloop.done⟩

/-- Two files of which the first is shorter than requested, on two ranks. -/
theorem mpi_jitget_agrees_iff_two :
    ∃ w, jitget (n := 1) (fun _ => 8) 2 (fun _ _ => 0) ⟨0, fun i => if i = 0 then 3 else 8, fun _ => 7⟩ =
        some (0, w) ∧
      ∀ p, Agrees (fun _ => 8) 2 ⟨0, fun i => if i = 0 then 3 else 8, fun _ => 7⟩ (w p) :=
  (@mpi_jitget_agrees_iff 1 2 (by decide) (fun _ => 8) (fun _ _ => 0)
    ⟨0, fun i => if i = 0 then 3 else 8, fun _ => 7⟩ (by unfold Within; decide)).mpr
    ⟨by unfold NoneEmpty; decide, by decide⟩

/-- The first of two files is empty, and the second one is read to its place, eight bytes behind. -/
def emptyFirst : Got := ⟨0, fun i => if i = 0 then 0 else 8, fun _ => 7⟩

/-- The eight bytes at the beginning are broadcast instead of the second file, and the first `bsize`
stays as requested. -/
theorem mpi_jitget_differs : Within (fun _ => 8) 2 emptyFirst ∧
    ∃ w, jitget (n := 1) (fun _ => 8) 2 (fun _ _ => 0) emptyFirst = some (0, w) ∧
      (∀ p, (w p).bsize 0 = 8) ∧ (w 1).data.read 8 8 = List.replicate 8 0 ∧
      ∀ p, ¬ Agrees (fun _ => 8) 2 emptyFirst (w p) := by
  refine ⟨by unfold Within; decide, _, rfl, by decide, by decide, fun p hagree => ?_⟩
  have hsize := (hagree 0 (by decide)).1
  fin_cases p
  · exact absurd hsize (by decide)
  · exact absurd hsize (by decide)

end JitDt.Jitclient
