import JitDt.Jitcclient.Scatter
import JitDt.Lwatcher.Framing
import JitDt.Lwatcher.Independence

/-!
# The buffer of a GET reply

The buffer is as large as the sum of the requested sizes, computed in an `int`; each file
is read with its own requested size, converted to `size_t`. A negative size, or a sum that
wraps around to a small one, makes the buffer too small for a single file.
-/

namespace JitDt.Lwatcher

set_option autoImplicit false

open Misclib Jitcclient

/-- The requested sizes, by an index as the loops use it. -/
def asked (opt : Opt) (i : Nat) : Int32 := if hi : i < transoptSize then opt ⟨i, hi⟩ else 0

/-- `malloc` refuses the size, or no `read` may store behind what it allocated: the offset
in front of file `i` and the size passed to `read` stay within the buffer. -/
def BufferFits (nsize : Nat) (h : HistData) (opt : Opt) : Prop :=
  ∀ n alloc, sumSizes nsize opt = some (n, alloc) → alloc < 0 ∨
    ∀ (files : Fin transoptSize → FileRead) (heap : Memory) (i : Fin transoptSize) (p : Pack),
      i.val < n → packFrom alloc.toInt.toNat h opt files i 0 (.start heap) = some p →
        files i ≠ .noOpen → p.totsz + sizeT (opt i) ≤ alloc.toInt

/-- How many files the request makes the server pack. -/
def packed (nsize : Nat) (opt : Opt) : Nat := min nsize (leading opt)

/-- The sum of the requested sizes, without wrap-around. -/
def total (nsize : Nat) (opt : Opt) : Int := offset (asked opt) (packed nsize opt)

theorem asked_fin (opt : Opt) (i : Fin transoptSize) : asked opt i = opt i := dif_pos i.isLt

/-! ## The sum -/

theorem sumSizesFrom_wraps {opt : Opt} {k i n : Nat} {tot tot' : Int32}
    (htot : tot.toInt = (offset (asked opt) i).bmod (2 ^ 32))
    (h : sumSizesFrom opt k i tot = some (n, tot')) :
    tot'.toInt = (offset (asked opt) n).bmod (2 ^ 32) := by
  induction k generalizing i tot with
  | zero =>
    cases h
    exact htot
  | succ k ih =>
    unfold sumSizesFrom at h
    split at h
    · rename_i hi
      split at h
      · cases h
        exact htot
      · refine ih ?_ h
        have hask : asked opt i = opt ⟨i, hi⟩ := dif_pos hi
        rw [Int32.toInt_add, htot, offset_succ, hask]
        exact Int.bmod_add_bmod
    · cases h

theorem sumSizes_wraps {nsize n : Nat} {opt : Opt} {alloc : Int32}
    (h : sumSizes nsize opt = some (n, alloc)) :
    n = packed nsize opt ∧ alloc.toInt = (total nsize opt).bmod (2 ^ 32) := by
  have hn := sumSizes_index h
  have hsum := sumSizesFrom_wraps rfl h
  rw [hn] at hsum
  exact ⟨hn, hsum⟩

theorem sumSizesFrom_defined (opt : Opt) {k i : Nat} (hk : i + k ≤ transoptSize) (tot : Int32) :
    ∃ r, sumSizesFrom opt k i tot = some r := by
  induction k generalizing i tot with
  | zero => exact ⟨_, rfl⟩
  | succ k ih =>
    have hi : i < transoptSize := by omega
    unfold sumSizesFrom
    rw [dif_pos hi]
    split
    · exact ⟨_, rfl⟩
    · exact ih (by omega) _

/-! ## The offsets -/

theorem packOpened_totsz {alloc : Nat} {opt : Opt} {i : Fin transoptSize} {path : Path}
    {file : FileRead} {p q : Pack} (hpos : 0 ≤ (opt i).toInt)
    (h : packOpened alloc opt i path file p = some q) : q.totsz ≤ p.totsz + (opt i).toInt := by
  obtain ⟨name, _, h⟩ := Option.bind_eq_some_iff.mp h
  obtain ⟨tmpstr, _, h⟩ := Option.bind_eq_some_iff.mp h
  split at h
  · rw [← Option.some.inj h]
    change p.totsz - 1 ≤ _
    omega
  · rename_i bytes hread
    obtain ⟨cp, _, h⟩ := Option.bind_eq_some_iff.mp h
    have hlen := (read_length_le hread).2
    rw [← Option.some.inj h]
    change p.totsz + bytes.length ≤ _
    omega

theorem packFile_totsz {alloc : Nat} {opt : Opt} {i : Fin transoptSize} {path : Path}
    {file : FileRead} {p q : Pack} (hpos : 0 ≤ (opt i).toInt)
    (h : packFile alloc opt i path file p = some q) : q.totsz ≤ p.totsz + (opt i).toInt := by
  unfold packFile at h
  split at h
  · rw [← Option.some.inj h]
    omega
  · exact packOpened_totsz hpos h

/-- The files in front take no more than was asked for them. -/
theorem packFrom_totsz {alloc : Nat} {h : HistData} {opt : Opt}
    {files : Fin transoptSize → FileRead} {k i : Nat} {p q : Pack}
    (hpos : ∀ j < i + k, 0 ≤ (asked opt j).toInt)
    (hp : packFrom alloc h opt files k i p = some q) :
    q.totsz ≤ p.totsz + (offset (asked opt) (i + k) - offset (asked opt) i) := by
  induction k generalizing i p with
  | zero =>
    rw [← Option.some.inj hp, Nat.add_zero]
    omega
  | succ k ih =>
    unfold packFrom at hp
    split at hp
    · rename_i hi
      have hmono := offset_mono hpos (show i ≤ i + (k + 1) by omega) (le_refl _)
      split at hp
      · rw [← Option.some.inj hp]
        omega
      · obtain ⟨p', hfile, hp⟩ := Option.bind_eq_some_iff.mp hp
        have hask : asked opt i = opt ⟨i, hi⟩ := dif_pos hi
        have hone := packFile_totsz (hask ▸ hpos i (by omega)) hfile
        have hrest := ih (fun j hj => hpos j (by omega)) hp
        have hsucc := offset_succ (asked opt) i
        rw [hask] at hsucc
        rw [show i + 1 + k = i + (k + 1) by omega] at hrest
        omega
    · cases hp

/-- Files that do not open leave everything as it was. -/
theorem packFrom_skip {alloc : Nat} {h : HistData} {opt : Opt}
    {files : Fin transoptSize → FileRead} {k i : Nat} (p : Pack) (hk : i + k ≤ transoptSize)
    (hname : ∀ j : Fin fnameMax, j.val < i + k → h.fname j ≠ none)
    (hskip : ∀ j : Fin transoptSize, j.val < i + k → files j = .noOpen) :
    packFrom alloc h opt files k i p = some p := by
  induction k generalizing i with
  | zero => rfl
  | succ k ih =>
    have hi : i < transoptSize := by omega
    obtain ⟨path, hpath⟩ := Option.ne_none_iff_exists'.mp (hname ⟨i, hi⟩ (by simp only; omega))
    have hfile := hskip ⟨i, hi⟩ (by simp only; omega)
    unfold packFrom
    rw [dif_pos hi, hpath, hfile]
    exact ih (by omega) (fun j hj => hname j (by omega)) (fun j hj => hskip j (by omega))

/-! ## When the buffer is large enough -/

theorem fits_of_total {nsize n : Nat} {opt : Opt} {alloc : Int32} {h : HistData}
    {files : Fin transoptSize → FileRead} {heap : Memory} {i : Fin transoptSize} {p : Pack}
    (hpos : ∀ j < n, 0 ≤ (asked opt j).toInt) (halloc : alloc.toInt = offset (asked opt) n)
    (hi : i.val < n) (hp : packFrom nsize h opt files i 0 (.start heap) = some p) :
    p.totsz + sizeT (opt i) ≤ alloc.toInt := by
  have htot := packFrom_totsz (fun j hj => hpos j (by omega)) hp
  have hstart : (Pack.start heap).totsz = 0 := rfl
  have hopt := hpos i hi
  have hsucc := offset_succ (asked opt) i
  have hmono := offset_mono hpos (show i.val + 1 ≤ n by omega) (le_refl n)
  rw [asked_fin] at hopt hsucc
  rw [Nat.zero_add, offset_zero] at htot
  rw [sizeT_of_nonneg hopt]
  omega

theorem sizeT_of_neg {x : Int32} (h : x.toInt < 0) : 2 ^ 63 ≤ sizeT x := by
  have hle := x.le_toInt
  unfold sizeT
  omega

/-- A file that is the first to open is read at the start of the buffer. -/
theorem BufferFits.first {nsize n : Nat} {h : HistData} {opt : Opt} {alloc : Int32}
    (hfits : BufferFits nsize h opt) (hsum : sumSizes nsize opt = some (n, alloc))
    (halloc : ¬ alloc < 0) (hname : ∀ j : Fin fnameMax, j.val < n → h.fname j ≠ none)
    {i : Fin transoptSize} (hi : i.val < n) : (sizeT (opt i) : Int) ≤ alloc.toInt := by
  have hall := (hfits n alloc hsum).resolve_left halloc
  have hskip : packFrom alloc.toInt.toNat h opt
      (fun j => if j < i then .noOpen else .content []) i 0 (.start fun _ => 0) =
        some (.start fun _ => 0) := by
    have hlt := i.isLt
    apply packFrom_skip
    · omega
    · intro j hj
      exact hname j (by omega)
    · intro j hj
      exact if_pos (Fin.lt_def.mpr (by omega))
  have hopen : (if i < i then FileRead.noOpen else .content []) ≠ .noOpen := by
    rw [if_neg (lt_irrefl i)]
    intro hc
    cases hc
  have hle := hall _ _ i _ hi hskip hopen
  rwa [show (Pack.start fun _ => 0).totsz = 0 from rfl, zero_add] at hle

/-- Three sizes that fit an `int` each wrap around at most once, and then lose more than
the first of them. -/
theorem bmod_total_lt {s a b c : Int} (hs : s ≤ a + (b + c)) (hb : b < 2 ^ 31) (hc : c < 2 ^ 31)
    (ha : a < 2 ^ 31) (hbig : 2 ^ 31 ≤ s) (hnonneg : 0 ≤ s.bmod (2 ^ 32)) :
    s.bmod (2 ^ 32) < a := by
  rw [Int.bmod_def] at *
  split at hnonneg <;> omega

theorem offset_asked_le {opt : Opt} {n : Nat} (hn : n ≤ transoptSize) (h0 : 0 < n) :
    ∃ b c : Int, b < 2 ^ 31 ∧ c < 2 ^ 31 ∧
      offset (asked opt) n ≤ (asked opt 0).toInt + (b + c) := by
  have hb := (asked opt 1).toInt_lt
  have hc := (asked opt 2).toInt_lt
  have h1 : offset (asked opt) 1 = 0 + (asked opt 0).toInt := offset_succ (asked opt) 0
  have h2 : offset (asked opt) 2 = offset (asked opt) 1 + (asked opt 1).toInt := offset_succ _ 1
  have h3 : offset (asked opt) 3 = offset (asked opt) 2 + (asked opt 2).toInt := offset_succ _ 2
  unfold transoptSize at hn
  obtain rfl | rfl | rfl : n = 1 ∨ n = 2 ∨ n = 3 := by omega
  · exact ⟨0, 0, by decide, by decide, by omega⟩
  · exact ⟨(asked opt 1).toInt, 0, hb, by decide, by omega⟩
  · exact ⟨(asked opt 1).toInt, (asked opt 2).toInt, hb, hc, by omega⟩

/-- For a complete entry: the buffer is large enough if and only if the sum makes `malloc`
refuse, or no size is negative and the sum does not wrap. -/
theorem bufferFits_iff {nsize : Nat} {h : HistData} (harr : arrived nsize h = some true)
    (opt : Opt) : BufferFits nsize h opt ↔
      (total nsize opt).bmod (2 ^ 32) < 0 ∨
        ((∀ i < packed nsize opt, 0 ≤ (asked opt i).toInt) ∧ total nsize opt < 2 ^ 31) := by
  obtain ⟨hns, hname⟩ := arrived_true harr
  have hthree : 0 + nsize ≤ transoptSize := (Nat.zero_add nsize).le.trans hns
  obtain ⟨⟨n, alloc⟩, hsum⟩ := sumSizesFrom_defined opt hthree 0
  obtain ⟨hn, hval⟩ := sumSizes_wraps hsum
  have hneg : alloc < 0 ↔ (total nsize opt).bmod (2 ^ 32) < 0 := by
    rw [Int32.lt_iff_toInt_lt, hval, Int32.toInt_zero]
  rw [← hneg, ← hn]
  constructor
  · intro hfits
    by_cases halloc : alloc < 0
    · exact Or.inl halloc
    right
    have hpresent : ∀ j : Fin fnameMax, j.val < n → h.fname j ≠ none := by
      intro j hj
      exact hname j (by unfold packed at hn; omega)
    have hfirst := fun i hi => hfits.first hsum halloc hpresent (i := i) hi
    have hle : n ≤ transoptSize := by
      rw [hn]
      exact (Nat.min_le_right _ _).trans (leading_le opt)
    have hpos : ∀ i < n, 0 ≤ (asked opt i).toInt := by
      intro i hi
      by_contra hlt
      have hread := hfirst ⟨i, by omega⟩ hi
      have hsize := sizeT_of_neg (x := asked opt i) (by omega)
      have hmax := alloc.toInt_lt
      rw [← asked_fin opt ⟨i, by omega⟩] at hread
      change (sizeT (asked opt i) : Int) ≤ alloc.toInt at hread
      omega
    refine ⟨hpos, ?_⟩
    by_contra hbig
    have h0 : 0 < n := by
      by_contra hz
      obtain rfl : n = 0 := by omega
      apply hbig
      unfold total
      rw [← hn, offset_zero]
      decide
    obtain ⟨b, c, hb, hc, hsumle⟩ := @offset_asked_le opt n hle h0
    have hread := hfirst ⟨0, by decide⟩ h0
    rw [← asked_fin opt ⟨0, by decide⟩, sizeT_of_nonneg (hpos 0 h0), hval] at hread
    rw [hneg] at halloc
    have hlost := bmod_total_lt (s := total nsize opt) (by unfold total; rw [← hn]; exact hsumle) hb
      hc (asked opt 0).toInt_lt (by omega) (by omega)
    have := hpos 0 h0
    omega
  · rintro (halloc | ⟨hpos, hlt⟩) n' alloc' hsum'
    · obtain ⟨rfl, rfl⟩ := Prod.mk.inj (Option.some.inj (hsum.symm.trans hsum'))
      exact Or.inl halloc
    · obtain ⟨rfl, rfl⟩ := Prod.mk.inj (Option.some.inj (hsum.symm.trans hsum'))
      right
      intro files heap i p hi hp _
      have hnonneg : 0 ≤ offset (asked opt) n := offset_mono hpos (Nat.zero_le n) (le_refl n)
      refine fits_of_total hpos ?_ hi hp
      rw [hval, total, ← hn]
      rw [total, ← hn] at hlt
      exact Int.bmod_eq_of_le_mul_two (by omega) (by omega)

/-- A request for all three types. -/
theorem bufferFits_iff_three : BufferFits 3
    ⟨7, ![some ⟨[97], by decide⟩, some ⟨[98], by decide⟩, some ⟨[99], by decide⟩]⟩ ![5, 70000, 8] :=
  (@bufferFits_iff 3 ⟨7, ![some ⟨[97], by decide⟩, some ⟨[98], by decide⟩, some ⟨[99], by decide⟩]⟩
    rfl ![5, 70000, 8]).mpr (Or.inr (by decide +kernel))

/-- The sizes `2147483647`, `2147483647` and `3` get a buffer of one byte. -/
theorem bufferFits_fails : arrived 3 ⟨7, fun _ => some ⟨[97], by decide⟩⟩ = some true ∧
    sumSizes 3 ![2147483647, 2147483647, 3] = some (3, 1) ∧
    ¬ BufferFits 3 ⟨7, fun _ => some ⟨[97], by decide⟩⟩ ![2147483647, 2147483647, 3] := by
  refine ⟨rfl, by decide +kernel, fun hfits => ?_⟩
  have hread := @BufferFits.first 3 3 _ _ 1 hfits (by decide +kernel) (by decide)
    (fun j _ hc => by cases hc) 0 (by decide)
  exact absurd hread (by decide +kernel)

end JitDt.Lwatcher
