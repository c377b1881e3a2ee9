import JitDt.Lockfile.Jitopen
import JitDt.Lockfile.Delivery

/-!
# Processes that keep lock files open

`_jitopen` keeps its lock file until `_jitclose`, so a process can call again, and wait in
`locked_lock`, with lock files in its hands. `step` interleaves one kwatcher with any number of
processes linked with jitkclient.c, each of which calls `_jitget`, `_jitopen` and `_jitclose` in
any order, the last one with a descriptor that `_jitopen` has returned and that is still open. No
process dies.
-/

namespace JitDt.Lockfile.Sessions

set_option autoImplicit false

open Machine

inductive Call where
  | jitget
  | jitopen (type : Nat)
deriving DecidableEq

/-- A process between two calls, in `locked_lock`, or with a lock file: before the read, after it
found nothing there, while `_jitget` reads the files, and after the four zero bytes. -/
inductive Pc where
  | idle
  | waiting (c : Call)
  | locked (c : Call) (f : Bool)
  | failed (f : Bool)
  | got (f : Bool)
  | nullified (f : Bool)
deriving DecidableEq

/-- `lckfds` has the lock file of every descriptor that is open. -/
structure Process where
  ticktack : Bool
  fpath : List UInt8
  pc : Pc
  lckfds : Nat → Option Bool

/-- What a call has got: all names, or the file of one type. -/
inductive Obtained where
  | files (names : List (List UInt8))
  | file (type : Nat) (name : List UInt8)
deriving DecidableEq

structure State where
  file : Bool → LockFile
  ticktack : Bool
  kpc : KPc
  process : Nat → Process
  published : List (List CStr)
  obtained : List Obtained

inductive Label where
  | lock
  | write (names : List CStr)
  | unlock
  | call (i : Nat) (c : Call)
  | clientLock (i : Nat)
  | clientRead (i : Nat) (ok : Bool) (disk : Disk)
  | clientClose (i : Nat)
  | clientNullify (i : Nat)
  | clientUnlock (i : Nat)
  | jitclose (i fd : Nat)

def init (content : Bool → List UInt8) : State where
  file := fun f => ⟨content f, none⟩
  ticktack := false
  kpc := .lock
  process := fun _ => ⟨false, List.replicate (pathMax + 1) 0, .idle, fun _ => none⟩
  published := []
  obtained := []

/-- The file whose name `open` was given. -/
def fileOf (type : Nat) : Option Entry → List Obtained
  | some (.name n) => [.file type n]
  | _ => []

namespace State

def setFile (s : State) (f : Bool) (x : LockFile) : State :=
  { s with file := Function.update s.file f x }

def setProcess (s : State) (i : Nat) (c : Process) : State :=
  { s with process := Function.update s.process i c }

/-- The lock of `f` goes to `o`, or is given up. -/
def setOwner (s : State) (f : Bool) (o : Option Owner) : State :=
  s.setFile f { s.file f with owner := o }

def setContent (s : State) (f : Bool) (c : List UInt8) : State :=
  s.setFile f { s.file f with content := c }

def setPc (s : State) (i : Nat) (pc : Pc) : State := s.setProcess i { s.process i with pc := pc }

/-- The read of `_jitget`. -/
def readList (s : State) (i : Nat) (f ok : Bool) : State :=
  match readNames (s.file f).content ok (s.process i).fpath with
  | (b, none) => s.setProcess i { s.process i with fpath := b, pc := .failed f }
  | (b, some files) =>
    { s.setProcess i { s.process i with fpath := b, pc := .got f } with
      obtained := s.obtained ++ [.files files] }

/-- The read of `_jitopen` and its `open`. The kernel returns no descriptor that is in use, and
the standard input is. -/
def openFile (s : State) (i : Nat) (f : Bool) (type : Nat) (ok : Bool) (disk : Disk) :
    Option State :=
  let c := s.process i
  let r := _jitopen (s.file f).content ok c.fpath type disk
  if r.locked = false then some (s.setProcess i { c with fpath := r.fpath, pc := .failed f })
  else if r.fd < 0 then some (s.setProcess i { c with fpath := r.fpath, pc := .idle })
  else if r.fd = 0 ∨ c.lckfds r.fd.toNat ≠ none then none
  else some { s.setProcess i { c with
      fpath := r.fpath
      pc := .idle
      lckfds := Function.update c.lckfds r.fd.toNat (some f) } with
    obtained := s.obtained ++ fileOf type r.arg }

end State

def step (s : State) : Label → Option State
  | .lock =>
    if s.kpc = .lock ∧ (s.file s.ticktack).owner = none then
      some { s.setOwner s.ticktack (some .kwatcher) with
        ticktack := !s.ticktack
        kpc := .held s.ticktack }
    else none
  | .write names =>
    match s.kpc with
    | .held f =>
      if FitsTables names then
        some { s.setContent f (locked_write (s.file f).content (lockedf names)) with
          kpc := .written f
          published := s.published ++ [names] }
      else none
    | _ => none
  | .unlock =>
    match s.kpc with
    | .written f => some { s.setOwner f none with kpc := .lock }
    | _ => none
  | .call i c => if (s.process i).pc = .idle then some (s.setPc i (.waiting c)) else none
  | .clientLock i =>
    match (s.process i).pc with
    | .waiting c =>
      let f := (s.process i).ticktack
      if (s.file f).owner = none then
        some ((s.setOwner f (some (.client i))).setProcess i
          { s.process i with ticktack := !f, pc := .locked c f })
      else none
    | _ => none
  | .clientRead i ok disk =>
    match (s.process i).pc with
    | .locked .jitget f => some (s.readList i f ok)
    | .locked (.jitopen type) f => s.openFile i f type ok disk
    | _ => none
  | .clientClose i =>
    match (s.process i).pc with
    | .failed f => some ((s.setOwner f none).setPc i .idle)
    | _ => none
  | .clientNullify i =>
    match (s.process i).pc with
    | .got f => some ((s.setContent f (nullify (s.file f).content)).setPc i (.nullified f))
    | _ => none
  | .clientUnlock i =>
    match (s.process i).pc with
    | .nullified f => some ((s.setOwner f none).setPc i .idle)
    | _ => none
  -- the entry of `lckfds` stays, but means nothing before the descriptor is open again
  | .jitclose i fd =>
    match (s.process i).pc, (s.process i).lckfds fd with
    | .idle, some f => some ((s.setContent f (nullify (s.file f).content)).setProcess i
        { s.process i with
          pc := .nullified f
          lckfds := Function.update (s.process i).lckfds fd none })
    | _, _ => none

/-! ## What a step does -/

inductive StepCases (s : State) : Label → State → Prop where
  | lock (hpc : s.kpc = .lock) (hfree : (s.file s.ticktack).owner = none) :
      StepCases s .lock { s.setOwner s.ticktack (some .kwatcher) with
        ticktack := !s.ticktack
        kpc := .held s.ticktack }
  | write (names : List CStr) (f : Bool) (hk : s.kpc = .held f) (hfit : FitsTables names) :
      StepCases s (.write names)
        { s.setContent f (locked_write (s.file f).content (lockedf names)) with
          kpc := .written f
          published := s.published ++ [names] }
  | unlock (f : Bool) (hk : s.kpc = .written f) :
      StepCases s .unlock { s.setOwner f none with kpc := .lock }
  | call (i : Nat) (c : Call) (hpc : (s.process i).pc = .idle) :
      StepCases s (.call i c) (s.setPc i (.waiting c))
  | clientLock (i : Nat) (c : Call) (f : Bool) (hpc : (s.process i).pc = .waiting c)
      (hf : (s.process i).ticktack = f) (hfree : (s.file f).owner = none) :
      StepCases s (.clientLock i) ((s.setOwner f (some (.client i))).setProcess i
        { s.process i with ticktack := !f, pc := .locked c f })
  | readList (i : Nat) (ok f : Bool) (disk : Disk) (hpc : (s.process i).pc = .locked .jitget f) :
      StepCases s (.clientRead i ok disk) (s.readList i f ok)
  | openFile (i type : Nat) (ok f : Bool) (disk : Disk) (t : State)
      (hpc : (s.process i).pc = .locked (.jitopen type) f)
      (hopen : s.openFile i f type ok disk = some t) : StepCases s (.clientRead i ok disk) t
  | clientClose (i : Nat) (f : Bool) (hpc : (s.process i).pc = .failed f) :
      StepCases s (.clientClose i) ((s.setOwner f none).setPc i .idle)
  | clientNullify (i : Nat) (f : Bool) (hpc : (s.process i).pc = .got f) :
      StepCases s (.clientNullify i)
        ((s.setContent f (nullify (s.file f).content)).setPc i (.nullified f))
  | clientUnlock (i : Nat) (f : Bool) (hpc : (s.process i).pc = .nullified f) :
      StepCases s (.clientUnlock i) ((s.setOwner f none).setPc i .idle)
  | jitclose (i fd : Nat) (f : Bool) (hpc : (s.process i).pc = .idle)
      (hfd : (s.process i).lckfds fd = some f) :
      StepCases s (.jitclose i fd) ((s.setContent f (nullify (s.file f).content)).setProcess i
        { s.process i with
          pc := .nullified f
          lckfds := Function.update (s.process i).lckfds fd none })

theorem step_cases {s t : State} {l : Label} (h : step s l = some t) : StepCases s l t := by
  unfold step at h
  split at h
  · split at h
    · rename_i hcond
      rw [← Option.some.inj h]
      exact .lock hcond.1 hcond.2
    · cases h
  · split at h
    · split at h
      · rw [← Option.some.inj h]
        exact .write _ _ ‹_› ‹_›
      · cases h
    · cases h
  · split at h
    · rw [← Option.some.inj h]
      exact .unlock _ ‹_›
    · cases h
  · split at h
    · rw [← Option.some.inj h]
      exact .call _ _ ‹_›
    · cases h
  · split at h
    · simp only at h
      split at h
      · rw [← Option.some.inj h]
        exact .clientLock _ _ _ ‹_› rfl ‹_›
      · cases h
    · cases h
  · split at h
    · rw [← Option.some.inj h]
      exact .readList _ _ _ _ ‹_›
    · exact .openFile _ _ _ _ _ _ ‹_› h
    · cases h
  · split at h
    · rw [← Option.some.inj h]
      exact .clientClose _ _ ‹_›
    · cases h
  · split at h
    · rw [← Option.some.inj h]
      exact .clientNullify _ _ ‹_›
    · cases h
  · split at h
    · rw [← Option.some.inj h]
      exact .clientUnlock _ _ ‹_›
    · cases h
  · split at h
    · rw [← Option.some.inj h]
      exact .jitclose _ _ _ ‹_› ‹_›
    · cases h

end JitDt.Lockfile.Sessions
