import JitDt.Lockfile.Place
import JitDt.Lockfile.Model

/-!
# Moving a file under a lock

`locked_move` of translib.c copies a file, unlinks it and writes the name of the copy into the
lock file. The copy is a loop over `read` and `write`, and two variables it leaves behind tell
afterwards why it has ended. What `open`, `read` and `write` do is a parameter: they may fail at
any call, and transfer less than was asked for. `unlink` succeeds, and nobody else touches the
files; paths fit their buffers, and the source is not a directory path that ends in a slash.
-/

namespace JitDt.Translib

set_option autoImplicit false

open PathName
open Lockfile (locked_write lckpath lockfname)

def bsize : Nat := 1024 * 8

abbrev Path := List UInt8

/-- The contents of all files. -/
abbrev Files := Nat → List UInt8

/-! ## The system calls -/

/-- `read` at offset `off`: `none` is an error, `some n` delivers up to `n + 1` bytes, and
nothing at the end of the file. -/
def read (content : List UInt8) (off : Nat) : Option Nat → Option (List UInt8)
  | none => none
  | some n => some ((content.drop off).take (min (n + 1) bsize))

/-- `write` at the end of the file: what it returns, and what it has written. -/
def write (content buf : List UInt8) : Option Nat → Int × List UInt8
  | none => (-1, content)
  | some n => ((min n buf.length : Nat), content ++ buf.take n)

/-- What the calls of one `locked_move` find and do: the files that are opened, if that succeeds,
and the results of the `i`-th `read` and `write`. -/
structure Calls where
  lock : Option Nat
  source : Option Nat
  dest : Option Nat
  reads : Nat → Option Nat
  writes : Nat → Option Nat

/-! ## The function -/

/-- The variables of the loop when it has ended. -/
structure Copied where
  szr : Int
  szw : Int
  files : Files

/-- The loop from iteration `i` on, at most `k` of them; `none` if it goes on after that. -/
def copyFrom (c : Calls) (src dst : Nat) : Nat → Nat → Nat → Int → Files → Option Copied
  | 0, _, _, _, _ => none
  | k + 1, i, off, szw, files =>
    match read (files src) off (c.reads i) with
    | none => some ⟨-1, szw, files⟩
    | some buf =>
      if buf.length = 0 then some ⟨0, szw, files⟩
      else
        let w := write (files dst) buf (c.writes i)
        let files' := Function.update files dst w.2
        if w.1 ≠ buf.length then some ⟨buf.length, w.1, files'⟩
        else copyFrom c src dst k (i + 1) (off + buf.length) w.1 files'

/-- `unlink` of the source and `locked_write`, with the files as they are before the call. -/
inductive Act where
  | unlink (fname : Path)
  | record (fnbuf : Path)
deriving DecidableEq

structure Moved where
  exited : Bool
  files : Files
  acts : List (Act × Files)

/-- The name of the copy. -/
def destname (rpath fname : Path) : Path :=
  match rindex rpath with
  | some (_, []) => rpath ++ basePart fname
  | _ => rpath

def locked_move (c : Calls) (rpath fname : Path) (files : Files) : Option Moved :=
  match c.lock, c.source, c.dest with
  | some lck, some src, some dst =>
    let opened := Function.update files dst []
    (copyFrom c src dst ((opened src).length + 1) 0 0 0 opened).map fun r =>
      if r.szr < 0 ∨ (r.szr ≠ 0 ∧ r.szw ≠ r.szr) then ⟨true, r.files, []⟩
      else
        ⟨false,
          Function.update r.files lck (locked_write (r.files lck) (destname rpath fname)),
          [(.unlink fname, r.files), (.record (destname rpath fname), r.files)]⟩
  | _, _, _ => some ⟨true, files, []⟩

/-! ## The loop -/

section Copy
variable {c : Calls} {src dst : Nat} {files : Files} {buf : List UInt8} {off : Nat}

theorem read_length {content : List UInt8} {r : Option Nat} (h : read content off r = some buf) :
    buf = (content.drop off).take buf.length := by
  cases r with
  | none => cases h
  | some n =>
    rw [← Option.some.inj h, List.length_take, List.take_eq_take_iff]
    omega

/-- Nothing is read only at the end of the file. -/
theorem read_end {content : List UInt8} {r : Option Nat} (h : read content off r = some buf)
    (h0 : buf.length = 0) : content.length ≤ off := by
  cases r with
  | none => cases h
  | some n =>
    rw [← Option.some.inj h, List.length_take, List.length_drop] at h0
    unfold bsize at h0
    omega

/-- A full write appends what was read. -/
theorem write_full {content : List UInt8} {r : Option Nat}
    (h : (write content buf r).1 = buf.length) : (write content buf r).2 = content ++ buf := by
  cases r with
  | none =>
    change (-1 : Int) = _ at h
    omega
  | some n =>
    change ((min n buf.length : Nat) : Int) = _ at h
    change content ++ buf.take n = _
    rw [List.take_of_length_le (by omega)]

/-- How the loop ends: the copy is complete, or one of the variables shows an error. -/
structure Ends (src dst : Nat) (files : Files) (r : Copied) : Prop where
  others : ∀ f, f ≠ dst → r.files f = files f
  complete : r.szr = 0 → r.files dst = files src
  failed : r.szr ≠ 0 → r.szr < 0 ∨ r.szw ≠ r.szr

/-- The loop ends, from every iteration at which the copy is the part of the source already
read. -/
theorem copyFrom_ends (hdiff : src ≠ dst) {k i : Nat} {szw : Int}
    (hcopy : files dst = (files src).take off) (hoff : off ≤ (files src).length)
    (hk : (files src).length < off + k) :
    ∃ r, copyFrom c src dst k i off szw files = some r ∧ Ends src dst files r := by
  induction k generalizing i off szw files with
  | zero => omega
  | succ k ih =>
    unfold copyFrom
    cases hread : read (files src) off (c.reads i) with
    | none =>
      have hneg : (-1 : Int) < 0 := by decide
      exact ⟨_, rfl, fun _ _ => rfl, fun h => absurd h hneg.ne, fun _ => Or.inl hneg⟩
    | some buf =>
      simp only
      by_cases h0 : buf.length = 0
      · rw [if_pos h0]
        refine ⟨_, rfl, fun _ _ => rfl, fun _ => ?_, fun h => absurd rfl h⟩
        exact hcopy.trans (List.take_of_length_le (read_end hread h0))
      · rw [if_neg h0]
        have hbuf := read_length hread
        have hlen := congrArg List.length hbuf
        rw [List.length_take, List.length_drop] at hlen
        by_cases hfull : (write (files dst) buf (c.writes i)).1 = buf.length
        · rw [if_neg (not_not.mpr hfull), write_full hfull]
          have hsrc : Function.update files dst (files dst ++ buf) src = files src :=
            Function.update_of_ne hdiff _ _
          have hnext : Function.update files dst (files dst ++ buf) dst =
              (Function.update files dst (files dst ++ buf) src).take (off + buf.length) := by
            rw [hsrc, Function.update_self, hcopy, List.take_add, ← hbuf]
          obtain ⟨r, hr, hends⟩ := @ih (Function.update files dst (files dst ++ buf))
            (off + buf.length) (i + 1) (write (files dst) buf (c.writes i)).1 hnext
            (by rw [hsrc]; omega) (by rw [hsrc]; omega)
          refine ⟨r, hr, ?_, ?_, hends.failed⟩
          · intro f hf
            rw [hends.others f hf, Function.update_of_ne hf]
          · intro h
            rw [hends.complete h, hsrc]
        · rw [if_pos hfull]
          refine ⟨_, rfl, ?_, ?_, ?_⟩
          · intro f hf
            exact Function.update_of_ne hf _ _
          · intro h
            change (buf.length : Int) = 0 at h
            omega
          · exact fun _ => Or.inr hfull

end Copy

/-! ## The whole call -/

theorem destname_eq (rpath fname : Path) :
    destname rpath fname = if EndsSlash rpath then rpath ++ basePart fname else rpath := by
  unfold destname
  cases h : rindex rpath with
  | none =>
    rw [if_neg]
    rintro ⟨dir, rfl⟩
    exact rindex_eq_none h (by simp)
  | some x =>
    obtain ⟨dir, b⟩ := x
    cases b with
    | nil => rw [if_pos ⟨dir, (rindex_eq_some h).1⟩]
    | cons c b =>
      rw [if_neg]
      intro hslash
      have hbase := basePart_eq_nil hslash
      unfold basePart at hbase
      rw [h] at hbase
      cases hbase

/-- The name that the copy has in the directory of the lock file. -/
def copyBase (rpath fname : Path) : Path :=
  if EndsSlash rpath then basePart fname else basePart rpath

theorem parts_destname (rpath fname : Path) :
    parts (destname rpath fname) = parts (dirPart rpath) ++ parts (copyBase rpath fname) := by
  rw [destname_eq]
  unfold copyBase
  split
  · rename_i hslash
    rw [parts_append, basePart_eq_nil hslash]
    rfl
  · exact parts_eq rpath

theorem slash_not_mem_copyBase (rpath fname : Path) : slash ∉ copyBase rpath fname := by
  unfold copyBase
  split
  · exact slash_not_mem_basePart fname
  · exact slash_not_mem_basePart rpath

/-- The copy is written over the lock file exactly when it has its name. -/
theorem destname_lckpath_iff (ticktack : Bool) (rpath fname : Path) :
    parts (destname rpath fname) = parts (lckpath ticktack rpath) ↔
      copyBase rpath fname = lockfname ticktack := by
  rw [parts_destname, Lockfile.parts_lckpath, List.append_right_inj]
  constructor
  · intro hparts
    rcases parts_cases (slash_not_mem_copyBase rpath fname) with hnone | hone
    · rw [hnone] at hparts
      cases hparts
    · rw [hone] at hparts
      exact List.head_eq_of_cons_eq hparts
  · intro hname
    rw [hname, parts_of_not_mem (Lockfile.slash_not_mem_lockfname ticktack),
      if_pos (Lockfile.isName_lockfname ticktack)]

/-- The source is unlinked and the copy recorded only with the copy complete, and in every other
case neither happens and no file but the copy has changed. Afterwards the copy is still there and
the lock file has its name, unless the copy is the lock file: the two are in one directory, and
are one file if `copyBase` is the name of the lock file. -/
structure LosesNothing (c : Calls) (rpath fname : Path) (files : Files) (m : Moved) : Prop where
  complete : ∀ a ∈ m.acts, ∀ src dst, c.source = some src → c.dest = some dst →
    a.2 dst = files src
  moved : m.exited = false → m.acts.map Prod.fst = [.unlink fname, .record (destname rpath fname)]
  final : m.exited = false → ∀ lck src dst, c.lock = some lck → c.source = some src →
    c.dest = some dst → lck ≠ dst → m.files dst = files src ∧
      destname rpath fname ++ [0] <+: m.files lck ∧
      ∀ f, f ≠ lck → f ≠ dst → m.files f = files f
  kept : m.exited = true → m.acts = [] ∧ ∀ f, c.dest ≠ some f → m.files f = files f

/-- Three bytes are moved by reads of at most two. -/
def twoReads : Calls := ⟨some 0, some 1, some 2, fun _ => some 1, fun _ => some 9⟩

def threeBytes : Files := fun f => if f = 1 then [97, 98, 99] else []

/-- A short write ends the loop, and the source stays. -/
example : (locked_move { twoReads with writes := fun _ => some 1 } [100, 47] [119, 47, 120]
    threeBytes).map (fun m => (m.exited, m.files 2, m.acts.length)) = some (true, [97], 0) := by
  decide

end JitDt.Translib
