import Mathlib

/-!
# Fixed-width little-endian integers

`leBytes n v` are the low `n` bytes of `v`, least significant first, and `ofLe`
reads them back. `slice` is how a field is taken out of a byte image.
-/

namespace JitDt

set_option autoImplicit false

def leBytes : Nat → Nat → List UInt8
  | 0, _ => []
  | n + 1, v => UInt8.ofNat (v % 256) :: leBytes n (v / 256)

def ofLe (bs : List UInt8) : Nat := Nat.ofDigits 256 (bs.map UInt8.toNat)

@[simp] theorem leBytes_length (n v : Nat) : (leBytes n v).length = n := by
  induction n generalizing v with
  | zero => rfl
  | succ n ih => simp [leBytes, ih]

theorem ofLe_leBytes (n v : Nat) : ofLe (leBytes n v) = v % 256 ^ n := by
  induction n generalizing v with
  | zero => simp [leBytes, ofLe, Nat.mod_one]
  | succ n ih =>
    have hbyte : (UInt8.ofNat (v % 256)).toNat = v % 256 := by
      simp [UInt8.toNat_ofNat']
    have hrest : Nat.ofDigits 256 ((leBytes n (v / 256)).map UInt8.toNat) = v / 256 % 256 ^ n :=
      ih (v / 256)
    rw [leBytes, ofLe, List.map_cons, Nat.ofDigits_cons, hbyte, hrest, pow_succ', Nat.mod_mul]

def int32Bytes (x : Int32) : List UInt8 := leBytes 4 x.toUInt32.toNat

def int32Of (bs : List UInt8) : Int32 := (UInt32.ofNat (ofLe bs)).toInt32

@[simp] theorem int32Bytes_length (x : Int32) : (int32Bytes x).length = 4 := leBytes_length 4 _

@[simp] theorem int32Of_int32Bytes (x : Int32) : int32Of (int32Bytes x) = x := by
  have hlt : x.toUInt32.toNat < 256 ^ 4 := x.toUInt32.toNat_lt
  rw [int32Of, int32Bytes, ofLe_leBytes, Nat.mod_eq_of_lt hlt, UInt32.ofNat_toNat]
  simp

def int64Bytes (x : Int64) : List UInt8 := leBytes 8 x.toUInt64.toNat

def int64Of (bs : List UInt8) : Int64 := (UInt64.ofNat (ofLe bs)).toInt64

@[simp] theorem int64Bytes_length (x : Int64) : (int64Bytes x).length = 8 := leBytes_length 8 _

@[simp] theorem int64Of_int64Bytes (x : Int64) : int64Of (int64Bytes x) = x := by
  have hlt : x.toUInt64.toNat < 256 ^ 8 := x.toUInt64.toNat_lt
  rw [int64Of, int64Bytes, ofLe_leBytes, Nat.mod_eq_of_lt hlt, UInt64.ofNat_toNat]
  simp

def slice (off n : Nat) (bs : List UInt8) : List UInt8 := (bs.drop off).take n

/-- The field `f` of an image, with `p` before and `q` after it. -/
theorem slice_append {off n : Nat} {p f q : List UInt8} (hp : p.length = off)
    (hf : f.length = n) : slice off n (p ++ (f ++ q)) = f := by
  rw [slice, List.drop_left' hp, List.take_left' hf]

theorem slice_length {off n : Nat} {bs : List UInt8} (h : off + n ≤ bs.length) :
    (slice off n bs).length = n := by
  simp [slice]
  omega

end JitDt
