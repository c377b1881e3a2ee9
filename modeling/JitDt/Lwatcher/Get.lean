import JitDt.Jitcclient.Wire
import JitDt.Misclib.History

/-!
# Serving a GET request

The loops of `CMD_GET` in `transfer` of lwatcher.c: the completeness check, the sum
of the requested sizes, and the loop that packs the files into one buffer. All three
are bounded by `nsize`, which the second one may lower. `none` is undefined
behaviour: an index or a write outside its array.
-/

namespace JitDt.Lwatcher

set_option autoImplicit false

open Misclib Jitcclient

/-- What `open` and `read` do with one file of the entry. -/
inductive FileRead where
  | noOpen
  | noRead
  | content (bytes : List UInt8)

/-- `read(tfd, .., opt)` on a file that was opened; `none` is a negative result. -/
def FileRead.read : FileRead → Int32 → Option (List UInt8)
  | .content bytes, o => if o < 0 then none else some (bytes.take o.toInt.toNat)
  | _, _ => none

def fnameAt (h : HistData) (i : Nat) : Option (Option Path) :=
  if hi : i < fnameMax then some (h.fname ⟨i, hi⟩) else none

/-- The completeness check from type `i` on, `k` types left. -/
def arrivedFrom (h : HistData) : Nat → Nat → Option Bool
  | 0, _ => some true
  | k + 1, i => do
    match ← fnameAt h i with
    | none => some false
    | some _ => arrivedFrom h k (i + 1)

def arrived (nsize : Nat) (h : HistData) : Option Bool := arrivedFrom h nsize 0

/-- The requested sizes from entry `i` on: the loop index at the end, and the sum. -/
def sumSizesFrom (opt : Opt) : Nat → Nat → Int32 → Option (Nat × Int32)
  | 0, i, totsz => some (i, totsz)
  | k + 1, i, totsz =>
    if hi : i < transoptSize then
      if opt ⟨i, hi⟩ = 0 then some (i, totsz)
      else sumSizesFrom opt k (i + 1) (totsz + opt ⟨i, hi⟩)
    else none

/-- `nsize` after the request was looked at, and the size of the buffer. -/
def sumSizes (nsize : Nat) (opt : Opt) : Option (Nat × Int32) := sumSizesFrom opt nsize 0 0

structure Pack where
  tmpstr : List UInt8
  cp : Memory
  totsz : Int
  retval : Fin transoptSize → Option Int32

def Pack.start (heap : Memory) : Pack := ⟨[], heap, 0, fun _ => none⟩

/-- `strcat` into `tmpstr`, with room for the NUL. -/
def strcat (dst src : List UInt8) : Option (List UInt8) :=
  if dst.length + src.length < scmdStrsiz then some (dst ++ src) else none

def ftstrSeparator : List UInt8 := [59]

/-- The bytes read land at `&cp[totsz]`, in a buffer of `alloc` bytes. -/
def Pack.fill (alloc : Nat) (p : Pack) (bytes : List UInt8) : Option Memory :=
  if bytes = [] ∨ (0 ≤ p.totsz ∧ p.totsz + bytes.length ≤ alloc) then
    some (p.cp.write p.totsz bytes)
  else none

/-- The part of the loop body that runs when `open` succeeded. -/
def packOpened (alloc : Nat) (opt : Opt) (i : Fin transoptSize) (path : Path) (file : FileRead)
    (p : Pack) : Option Pack := do
  let name ← strcat p.tmpstr path.bytes
  let tmpstr ← strcat name ftstrSeparator
  match file.read (opt i) with
  | none =>
    some { p with
      tmpstr := tmpstr
      totsz := p.totsz - 1
      retval := Function.update p.retval i (some (-1)) }
  | some bytes => do
    let cp ← p.fill alloc bytes
    some
      { tmpstr := tmpstr
        cp := cp
        totsz := p.totsz + bytes.length
        retval := Function.update p.retval i (some (Int32.ofNat bytes.length)) }

def packFile (alloc : Nat) (opt : Opt) (i : Fin transoptSize) (path : Path) (file : FileRead)
    (p : Pack) : Option Pack :=
  match file with
  | .noOpen => some p
  | _ => packOpened alloc opt i path file p

/-- The packing loop from entry `i` on, `k` entries left. -/
def packFrom (alloc : Nat) (h : HistData) (opt : Opt) (files : Fin transoptSize → FileRead) :
    Nat → Nat → Pack → Option Pack
  | 0, _, p => some p
  | k + 1, i, p =>
    if hi : i < transoptSize then
      match h.fname ⟨i, hi⟩ with
      | none => some p
      | some path => do
        let p' ← packFile alloc opt ⟨i, hi⟩ path (files ⟨i, hi⟩) p
        packFrom alloc h opt files k (i + 1) p'
    else none

/-- What is handed to `trans_replyget`. -/
structure GetReply where
  date : Nat
  tmpstr : List UInt8
  cp : Memory
  totsz : Int
  retval : Fin transoptSize → Option Int32

/-- The bytes that follow the header. -/
def GetReply.payload (r : GetReply) : List UInt8 := r.cp.read 0 r.totsz.toNat

/-- A complete entry is sent: the new `nsize`, and the reply unless `malloc` refused a
negative size and the process exited. An empty `tmpstr` has no last character. -/
def serveGet (nsize : Nat) (h : HistData) (opt : Opt) (files : Fin transoptSize → FileRead)
    (heap : Memory) : Option (Nat × Option GetReply) := do
  let (nsize', alloc) ← sumSizes nsize opt
  if alloc < 0 then some (nsize', none)
  else do
    let p ← packFrom alloc.toInt.toNat h opt files nsize' 0 (.start heap)
    if p.tmpstr = [] then none
    else some (nsize', some ⟨h.date, p.tmpstr.dropLast, p.cp, p.totsz, p.retval⟩)

/-! ## How many files -/

def leading (opt : Opt) : Nat := (List.finRange transoptSize).findIdx fun i => opt i = 0

theorem leading_le (opt : Opt) : leading opt ≤ transoptSize := by
  have h : leading opt ≤ (List.finRange transoptSize).length := List.findIdx_le_length
  rwa [List.length_finRange] at h

theorem ne_zero_of_lt_leading {o : Opt} {i : Fin transoptSize} (hi : i.val < leading o) :
    o i ≠ 0 := by
  have h := List.not_of_lt_findIdx hi
  simpa using h

theorem eq_zero_at_leading {o : Opt} {i : Fin transoptSize} (hi : i.val = leading o) :
    o i = 0 := by
  have hget : (List.finRange transoptSize)[leading o]? = some i := by
    rw [← hi]
    simp
  simpa using List.findIdx_of_getElem?_eq_some hget

theorem sumSizesFrom_index {opt : Opt} {k i n : Nat} {tot tot' : Int32} (hi : i ≤ leading opt)
    (h : sumSizesFrom opt k i tot = some (n, tot')) : n = min (i + k) (leading opt) := by
  induction k generalizing i tot with
  | zero =>
    simp only [sumSizesFrom, Option.some.injEq, Prod.mk.injEq] at h
    omega
  | succ k ih =>
    unfold sumSizesFrom at h
    split at h
    · rename_i hlt
      split at h
      · rename_i hz
        simp only [Option.some.injEq, Prod.mk.injEq] at h
        have hnlt : ¬ i < leading opt := fun hlt' =>
          ne_zero_of_lt_leading (i := ⟨i, hlt⟩) hlt' hz
        omega
      · rename_i hnz
        have hne : i ≠ leading opt := fun he => hnz (eq_zero_at_leading (i := ⟨i, hlt⟩) he)
        have := ih (by omega) h
        omega
    · cases h

/-- The request lowers `nsize` to the number of entries it asks for, never raises it. -/
theorem sumSizes_index {nsize n : Nat} {opt : Opt} {tot : Int32}
    (h : sumSizes nsize opt = some (n, tot)) : n = min nsize (leading opt) := by
  have := sumSizesFrom_index (Nat.zero_le _) h
  omega

theorem serveGet_index {nsize n : Nat} {h : HistData} {opt : Opt}
    {files : Fin transoptSize → FileRead} {heap : Memory} {r : Option GetReply}
    (hs : serveGet nsize h opt files heap = some (n, r)) : n = min nsize (leading opt) := by
  obtain ⟨⟨n', alloc⟩, hsum, hs⟩ := Option.bind_eq_some_iff.mp hs
  have hn : n = n' := by
    simp only at hs
    split at hs
    · simp only [Option.some.injEq, Prod.mk.injEq] at hs
      exact hs.1.symm
    · obtain ⟨p, _, hs⟩ := Option.bind_eq_some_iff.mp hs
      split at hs
      · cases hs
      · simp only [Option.some.injEq, Prod.mk.injEq] at hs
        exact hs.1.symm
  rw [hn]
  exact sumSizes_index hsum

end JitDt.Lwatcher
