import JitDt.Lib.Machine
import JitDt.Lib.Memory

/-!
# The lock files between kwatcher and its clients

kwatcher and the clients linked with jitkclient.c share two lock files. Every process
keeps its own `ticktack` and takes the files in turn. `step` interleaves one kwatcher
with any number of client processes; a step is one system call on a lock file with the
computation that follows it. `flock` is exclusive, no process dies, the writes succeed,
and a read of a lock file may fail.

`fpath` is a static buffer, so what an earlier call left there is still in it. The byte
in front of it, which a failed read overwrites, belongs to no variable of the model.
-/

namespace JitDt.Lockfile

set_option autoImplicit false

open Machine

def pathMax : Nat := 4096
def ftypeNum : Nat := 3
def ftchrSeparator : UInt8 := 59
def newline : UInt8 := 10

/-! ## The functions on the buffer -/

/-- `index(str, ch)` with `str` at position `p` of the buffer, and `*cp = 0` if found. -/
def cutAt (ch : UInt8) (b : List UInt8) (p : Nat) : Option (Nat × List UInt8) :=
  let s := cstrOf (b.drop p)
  if ch ∈ s then some (s.idxOf ch, b.set (p + s.idxOf ch) 0) else none

/-- `septype` from `next` on, with `k` places left in `files`: the buffer, and what is stored
in the places one after the other, a position of the buffer or a null pointer. -/
def septypeFrom : Nat → List UInt8 → Nat → List UInt8 × List (Option Nat)
  | 0, b, _ => (b, [])
  | k + 1, b, next =>
    match cutAt ftchrSeparator b next with
    | some (j, b') =>
      let (b'', files) := septypeFrom k b' (next + j + 1)
      (b'', some next :: files)
    | none => (b, [none])

def septype (b : List UInt8) : List UInt8 × List (Option Nat) := septypeFrom ftypeNum b 0

/-- The strings `files` leads to, up to the null pointer. -/
def texts (b : List UInt8) : List (Option Nat) → List (List UInt8)
  | some p :: files => cstrOf (b.drop p) :: texts b files
  | _ => []

/-- `files[i]`. A place that `septype` has not stored into is not set. -/
inductive Entry where
  | name (n : List UInt8)
  | null
  | unset
deriving DecidableEq

def fileEntry (b : List UInt8) (files : List (Option Nat)) (i : Nat) : Entry :=
  match files[i]? with
  | some (some p) => .name (cstrOf (b.drop p))
  | some none => .null
  | none => .unset

/-- `locked_read(lckfd, fpath, PATH_MAX)`: the result of `read` and the buffer. -/
def locked_read (content : List UInt8) (ok : Bool) (b : List UInt8) : Int × List UInt8 :=
  let data := content.take pathMax
  let b' := if ok then data ++ b.drop data.length else b
  let b'' := match cutAt newline b' 0 with
    | some (_, c) => c
    | none => b'
  (if ok then data.length else -1, b'')

def terminate (sz : Int) (b : List UInt8) : List UInt8 := if sz < 0 then b else b.set sz.toNat 0

/-- The part of `_jitget` between `locked_read` and the loop over the files: the buffer,
and the list of names unless the lock file holds none. -/
def readNames (content : List UInt8) (ok : Bool) (b : List UInt8) :
    List UInt8 × Option (List (List UInt8)) :=
  let (sz, b') := locked_read content ok b
  if b'.headD 0 = 0 then (b', none)
  else
    let (b'', files) := septype (terminate sz b')
    (b'', some (texts b'' files))

/-- The string `transfer` of kwatcher builds: every name followed by a separator. -/
def lockedf (names : List CStr) : List UInt8 := names.flatMap fun n => n.bytes ++ [ftchrSeparator]

/-- `locked_write` at offset 0, without truncation. -/
def locked_write (content info : List UInt8) : List UInt8 :=
  (info ++ [0]) ++ content.drop (info.length + 1)

/-- Four zero bytes at offset 0. -/
def nullify (content : List UInt8) : List UInt8 := [0, 0, 0, 0] ++ content.drop 4

/-! ## The processes -/

inductive Owner where
  | kwatcher
  | client (i : Nat)
deriving DecidableEq

structure LockFile where
  content : List UInt8
  owner : Option Owner

/-- kwatcher is about to lock a file, or holds it before or after the write. -/
inductive KPc where
  | lock
  | held (f : Bool)
  | written (f : Bool)
deriving DecidableEq

/-- A client between two calls, or holding a file: before the read, after it found no
names, after it took the names, and after it nullified the file. -/
inductive CPc where
  | idle
  | locked (f : Bool)
  | failed (f : Bool)
  | got (f : Bool)
  | nullified (f : Bool)
deriving DecidableEq

structure Client where
  ticktack : Bool
  fpath : List UInt8
  pc : CPc

structure State where
  file : Bool → LockFile
  ticktack : Bool
  kpc : KPc
  client : Nat → Client
  published : List (List CStr)
  obtained : List (List (List UInt8))

inductive Label where
  | lock
  | write (names : List CStr)
  | unlock
  | clientLock (i : Nat)
  | clientRead (i : Nat) (ok : Bool)
  | clientClose (i : Nat)
  | clientNullify (i : Nat)
  | clientUnlock (i : Nat)

/-- The names that fit the tables of kwatcher: `FNAME_MAX` of them, `fnam[128]`. -/
def FitsTables (names : List CStr) : Prop :=
  names ≠ [] ∧ names.length ≤ ftypeNum ∧ ∀ n ∈ names, n.bytes.length < 128

instance (names : List CStr) : Decidable (FitsTables names) := inferInstanceAs (Decidable (_ ∧ _))

def init (content : Bool → List UInt8) : State where
  file := fun f => ⟨content f, none⟩
  ticktack := false
  kpc := .lock
  client := fun _ => ⟨false, List.replicate (pathMax + 1) 0, .idle⟩
  published := []
  obtained := []

namespace State

def setOwner (s : State) (f : Bool) (o : Option Owner) : State :=
  { s with file := Function.update s.file f { s.file f with owner := o } }

def setContent (s : State) (f : Bool) (c : List UInt8) : State :=
  { s with file := Function.update s.file f { s.file f with content := c } }

def setClient (s : State) (i : Nat) (c : Client) : State :=
  { s with client := Function.update s.client i c }

def setPc (s : State) (i : Nat) (pc : CPc) : State := s.setClient i { s.client i with pc := pc }

/-- `locked_lock` of client `i`: its next file is locked, and its tick flipped. -/
def clientLocked (s : State) (i : Nat) : State :=
  let f := (s.client i).ticktack
  (s.setOwner f (some (.client i))).setClient i
    { s.client i with ticktack := !f, pc := .locked f }

def clientRead (s : State) (i : Nat) (f ok : Bool) : State :=
  match readNames (s.file f).content ok (s.client i).fpath with
  | (b, none) => s.setClient i { s.client i with fpath := b, pc := .failed f }
  | (b, some files) =>
    { s.setClient i { s.client i with fpath := b, pc := .got f } with
      obtained := s.obtained ++ [files] }

end State

def step (s : State) : Label → Option State
  | .lock =>
    if s.kpc = .lock ∧ (s.file s.ticktack).owner = none then
      some { s.setOwner s.ticktack (some .kwatcher) with
        ticktack := !s.ticktack
        kpc := .held s.ticktack }
    else none
  | .write names =>
    match s.kpc with
    | .held f =>
      if FitsTables names then
        some { s.setContent f (locked_write (s.file f).content (lockedf names)) with
          kpc := .written f
          published := s.published ++ [names] }
      else none
    | _ => none
  | .unlock =>
    match s.kpc with
    | .written f => some { s.setOwner f none with kpc := .lock }
    | _ => none
  | .clientLock i =>
    if (s.client i).pc = .idle ∧ (s.file (s.client i).ticktack).owner = none then
      some (s.clientLocked i)
    else none
  | .clientRead i ok =>
    match (s.client i).pc with
    | .locked f => some (s.clientRead i f ok)
    | _ => none
  | .clientClose i =>
    match (s.client i).pc with
    | .failed f => some ((s.setOwner f none).setPc i .idle)
    | _ => none
  | .clientNullify i =>
    match (s.client i).pc with
    | .got f => some ((s.setContent f (nullify (s.file f).content)).setPc i (.nullified f))
    | _ => none
  | .clientUnlock i =>
    match (s.client i).pc with
    | .nullified f => some ((s.setOwner f none).setPc i .idle)
    | _ => none

/-! ## What a step does -/

inductive StepCases (s : State) : Label → State → Prop where
  | lock (hpc : s.kpc = .lock) (hfree : (s.file s.ticktack).owner = none) :
      StepCases s .lock { s.setOwner s.ticktack (some .kwatcher) with
        ticktack := !s.ticktack
        kpc := .held s.ticktack }
  | write (names : List CStr) (f : Bool) (hk : s.kpc = .held f) (hfit : FitsTables names) :
      StepCases s (.write names)
        { s.setContent f (locked_write (s.file f).content (lockedf names)) with
          kpc := .written f
          published := s.published ++ [names] }
  | unlock (f : Bool) (hk : s.kpc = .written f) :
      StepCases s .unlock { s.setOwner f none with kpc := .lock }
  | clientLock (i : Nat) (hpc : (s.client i).pc = .idle)
      (hfree : (s.file (s.client i).ticktack).owner = none) :
      StepCases s (.clientLock i) (s.clientLocked i)
  | clientRead (i : Nat) (ok f : Bool) (hpc : (s.client i).pc = .locked f) :
      StepCases s (.clientRead i ok) (s.clientRead i f ok)
  | clientClose (i : Nat) (f : Bool) (hpc : (s.client i).pc = .failed f) :
      StepCases s (.clientClose i) ((s.setOwner f none).setPc i .idle)
  | clientNullify (i : Nat) (f : Bool) (hpc : (s.client i).pc = .got f) :
      StepCases s (.clientNullify i)
        ((s.setContent f (nullify (s.file f).content)).setPc i (.nullified f))
  | clientUnlock (i : Nat) (f : Bool) (hpc : (s.client i).pc = .nullified f) :
      StepCases s (.clientUnlock i) ((s.setOwner f none).setPc i .idle)

theorem step_cases {s t : State} {l : Label} (h : step s l = some t) : StepCases s l t := by
  unfold step at h
  split at h
  · split at h
    · rename_i hcond
      rw [← Option.some.inj h]
      exact .lock hcond.1 hcond.2
    · cases h
  · split at h
    · split at h
      · rw [← Option.some.inj h]
        exact .write _ _ ‹_› ‹_›
      · cases h
    · cases h
  · split at h
    · rw [← Option.some.inj h]
      exact .unlock _ ‹_›
    · cases h
  · split at h
    · rename_i hcond
      rw [← Option.some.inj h]
      exact .clientLock _ hcond.1 hcond.2
    · cases h
  · split at h
    · rw [← Option.some.inj h]
      exact .clientRead _ _ _ ‹_›
    · cases h
  · split at h
    · rw [← Option.some.inj h]
      exact .clientClose _ _ ‹_›
    · cases h
  · split at h
    · rw [← Option.some.inj h]
      exact .clientNullify _ _ ‹_›
    · cases h
  · split at h
    · rw [← Option.some.inj h]
      exact .clientUnlock _ _ ‹_›
    · cases h

/-- A read changes nothing but its client and what was obtained. -/
theorem clientRead_same (s : State) (i : Nat) (f ok : Bool) :
    (s.clientRead i f ok).file = s.file ∧ (s.clientRead i f ok).kpc = s.kpc ∧
      (s.clientRead i f ok).ticktack = s.ticktack ∧
        (s.clientRead i f ok).published = s.published := by
  unfold State.clientRead
  split <;> exact ⟨rfl, rfl, rfl, rfl⟩

end JitDt.Lockfile
