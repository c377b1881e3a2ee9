import JitDt.Lib.PathName

/-!
# The event loop of `mynotify`

The functions of inotifylib2.c over the static tables and one inotify instance. A directory is
known by the parts of its path and a generation, so that one removed and created again under the
same name is another directory; no link leads to a directory, and a part `..` is a name like any
other. What the system calls and `func` answer while an event is handled is a parameter;
`inotify_init` succeeds, and the descriptor it returns is not 0.
-/

namespace JitDt.Inotifylib

set_option autoImplicit false

open PathName (slash dot parts index)

def maxDirs : Nat := 24 * 60 * 2 + 1
def maxSubdirs : Nat := 60
def maxKeepdir : Nat := 10
def pathMax : Nat := 4096

def inCloseWrite : UInt32 := 0x8
def inMovedTo : UInt32 := 0x80
def inCreate : UInt32 := 0x100
def inIgnored : UInt32 := 0x8000

abbrev Path := List UInt8

/-! ## The system -/

structure Dir where
  path : List Path
  gen : Nat
deriving DecidableEq

/-- The watches of an instance. `dirOf` also keeps the descriptors whose watch is gone. -/
structure Inotify where
  next : Nat
  watch : Dir → Option Nat
  dirOf : Nat → Option Dir

namespace Inotify

def init : Inotify := ⟨1, fun _ => none, fun _ => none⟩

def add_watch (i : Inotify) (d : Dir) : Nat × Inotify :=
  (i.watch d).elim
    (i.next, ⟨i.next + 1, Function.update i.watch d (some i.next),
      Function.update i.dirOf i.next (some d)⟩)
    fun wd => (wd, i)

def rm_watch (i : Inotify) (wd : Int) : Inotify :=
  { i with watch := fun d => (i.watch d).filter fun n => (n : Int) ≠ wd }

end Inotify

inductive DType where
  | unknown
  | dir
  | other
deriving DecidableEq

/-- The answers of the system and of `func` while an event is handled: whether a path is a
directory, what a directory holds, and which directory a path leads to. -/
structure World where
  stat : Path → Option Bool
  readdir : Path → Option (List (Path × DType))
  live : List Path → Option Nat
  func : Path → Int

structure Event where
  wd : Int
  mask : UInt32
  name : Path

/-! ## The static data -/

structure Notify where
  wdirs : Nat → Path
  dirent : Nat → Path
  qrmdir : Nat → Int
  curqrmd : Nat
  curdir : Int
  prevpath : Path
  ino : Inotify

def Notify.zero : Notify := ⟨fun _ => [], fun _ => [], fun _ => 0, 0, 0, [], .init⟩

/-- The row of a descriptor, which is converted to `unsigned int`. -/
def row (wd : Int) : Nat := (wd % 2 ^ 32 % maxDirs).toNat

def Notify.getwdir (s : Notify) (wd : Int) : Path := s.wdirs (row wd)

def fformat (path : Path) : Path := if path.getLast? ≠ some slash then path ++ [slash] else path

/-! ## The functions -/

/-- The parameter of `dirs_check`: a buffer of the caller, or an entry of the table itself. -/
inductive PathArg where
  | buf (p : Path)
  | entry (e : Nat)

def PathArg.read (dirent : Nat → Path) : PathArg → Path
  | .buf p => p
  | .entry e => dirent e

/-- An entry of a directory that is passed over without a look at the table. -/
def skipped (d : Path × DType) : Bool := d.2 = .dir && (d.1 = [dot] || d.1 = [dot, dot])

/-- The table with the path of an entry made ready, and whether the entry is taken for a
directory. -/
def subdir (w : World) (path : Path) (dirent : Nat → Path) (entry : Nat) (d : Path × DType) :
    (Nat → Path) × Bool :=
  let joined := Function.update dirent entry (path ++ slash :: d.1)
  match d.2 with
  | .unknown => (joined, w.stat (path ++ slash :: d.1) = some true)
  | .dir => (joined, true)
  -- nothing is copied, so the entry still holds what an earlier scan has left there
  | .other => (dirent, true)

/-- `dirs_check` to the given depth; `none` if it goes on for ever or leaves the table. -/
def dirs_check (w : World) : Nat → Nat → PathArg → Bool → (Nat → Path) → Option (Nat × (Nat → Path))
  | 0, _, _, _, _ => none
  | k + 1, entry, path, sdir, dirent =>
    if maxSubdirs ≤ entry then none
    else
      let dirent := Function.update dirent entry (path.read dirent)
      if sdir = false then some (entry + 1, dirent)
      else
        match w.readdir (path.read dirent) with
        | none => some (0, dirent)
        | some dents =>
          dents.foldlM (fun x d =>
            if skipped d then some x
            else if maxSubdirs ≤ x.1 then none
            else
              let r := subdir w (path.read x.2) x.2 x.1 d
              if r.2 then
                dirs_check w k x.1 (.entry x.1) true
                  (Function.update r.1 x.1 (r.1 x.1 ++ [slash]))
              else some (x.1, r.1)) (entry + 1, dirent)

/-- `none` if the program exits because the path leads nowhere. -/
def add_watch (w : World) (s : Notify) (path : Path) : Option (Int × Notify) :=
  (w.live (parts path)).map fun gen =>
    let r := s.ino.add_watch ⟨parts path, gen⟩
    ((r.1 : Int), { s with ino := r.2 })

/-- Watch the directory and make it the current one under this path. -/
def enter (w : World) (path row' : Path) (s : Notify) : Option Notify :=
  (add_watch w s path).map fun r =>
    { r.2 with curdir := r.1, wdirs := Function.update r.2.wdirs (row r.1) row' }

def reset_watch (s : Notify) : Notify :=
  { s with
    ino := (List.range maxKeepdir).foldl
      (fun i k => if 0 < s.qrmdir k then i.rm_watch (s.qrmdir k) else i) s.ino
    curqrmd := 0 }

def rm_watch (wd : Int) (s : Notify) : Notify :=
  let dir := s.qrmdir s.curqrmd
  { s with
    ino := if 0 < dir then s.ino.rm_watch dir else s.ino
    qrmdir := Function.update s.qrmdir s.curqrmd wd
    curqrmd := (s.curqrmd + 1) % maxKeepdir }

/-- The loop over the parts of `startdir`, at most `k` of them. -/
def descend (w : World) : Nat → Path → Notify → Option Notify
  | 0, _, _ => none
  | k + 1, sp, s =>
    match index sp with
    | none => some s
    | some (part, rest) =>
      let avpath := s.getwdir s.curdir ++ part
      (enter w avpath (fformat avpath) s).bind (descend w k rest)

/-- From the label `restart` to the loop. -/
def restart (topdir : Path) (w : World) (startdir : Option Path) (s : Notify) : Option Notify :=
  (enter w topdir topdir (reset_watch { s with ino := .init })).bind fun s =>
    startdir.elim (some s) fun sp => descend w ((fformat sp).length + 1) (fformat sp) s

/-- What the body of the loop over the events leads to: the next event, with the path `func`
was called with, or the label `resetting`, or the end of the program. -/
inductive Outcome where
  | next (s : Notify) (call : Option Path)
  | resetting (s : Notify) (avpath : Path)
  | exit (s : Notify)
  | never (s : Notify)

def isExhaust (idx : Int) : Bool := (maxDirs : Int) - 1 < idx

/-- The loop over the directories that `dirs_check` has found. -/
def enterAll (w : World) (avpath : Path) : List Path → Notify → Outcome
  | [], s => .next s none
  | p :: ps, s =>
    if isExhaust s.curdir then .resetting s avpath
    else
      match enter w p (fformat p) s with
      | none => .exit s
      | some s => enterAll w avpath ps s

def leave (wd : Int) (s : Notify) : Notify := if wd ≠ s.curdir then rm_watch s.curdir s else s

def found (r : Nat × (Nat → Path)) : List Path := (List.range r.1).map r.2

def dirEvent (sdirflag : Bool) (w : World) (wd : Int) (avpath : Path) (s : Notify) : Outcome :=
  (dirs_check w pathMax 0 (.buf avpath) sdirflag s.dirent).elim (.never (leave wd s)) fun r =>
    enterAll w avpath (found r) { leave wd s with dirent := r.2 }

def fileEvent (w : World) (mask : UInt32) (name avpath : Path) (s : Notify) : Outcome :=
  if mask &&& (inCloseWrite ||| inMovedTo) = 0 then .next s none
  else if name.head? = some dot then .next s none
  else if s.prevpath = avpath then .next s none
  else .next { s with prevpath := if w.func avpath = 1 then avpath else [] } (some avpath)

def Notify.avpath (s : Notify) (e : Event) : Path := s.getwdir e.wd ++ e.name

def handle (sdirflag : Bool) (w : World) (e : Event) (s : Notify) : Outcome :=
  if e.mask &&& inIgnored ≠ 0 then .next s none
  else
    match w.stat (s.avpath e) with
    | none => .next s none
    | some true =>
      if e.mask &&& inCreate = 0 then .next s none else dirEvent sdirflag w e.wd (s.avpath e) s
    | some false => fileEvent w e.mask e.name (s.avpath e) s

/-! ## What a step can do -/

namespace Outcome

def state : Outcome → Notify
  | next s _ => s
  | resetting s _ => s
  | exit s => s
  | never s => s

def call : Outcome → Option Path
  | next _ call => call
  | resetting _ _ => none
  | exit _ => none
  | never _ => none

def goesOn : Outcome → Bool
  | next _ _ => true
  | resetting _ _ => false
  | exit _ => false
  | never _ => false

end Outcome

section Steps
variable {w : World} {s t : Notify} {e : Event} {p r avpath : Path} {ps : List Path}
  {sdirflag : Bool}

theorem parts_fformat (p : Path) : parts (fformat p) = parts p := by
  unfold fformat
  split
  · exact PathName.parts_concat_slash p
  · rfl

theorem endsSlash_fformat (p : Path) : PathName.EndsSlash (fformat p) := by
  unfold fformat
  split
  · exact PathName.endsSlash_concat p
  · rename_i h
    apply PathName.endsSlash_iff.mpr
    exact not_not.mp h

theorem prefix_fformat (p : Path) : p <+: fformat p := by
  unfold fformat
  split
  · exact List.prefix_append p [slash]
  · exact List.prefix_rfl

/-- What `inotify_add_watch` makes of an instance. -/
inductive Registers (i : Inotify) (d : Dir) : Nat → Inotify → Prop where
  | old {n : Nat} : i.watch d = some n → Registers i d n i
  | new : i.watch d = none → Registers i d i.next ⟨i.next + 1, Function.update i.watch d (some i.next),
      Function.update i.dirOf i.next (some d)⟩

theorem registers_add_watch (i : Inotify) (d : Dir) :
    Registers i d (i.add_watch d).1 (i.add_watch d).2 := by
  unfold Inotify.add_watch
  cases h : i.watch d with
  | none => exact .new h
  | some n => exact .old h

theorem Registers.watch {i i' : Inotify} {d : Dir} {n : Nat} (h : Registers i d n i') :
    i'.watch = Function.update i.watch d (some n) := by
  cases h with
  | old h =>
    rw [← h, Function.update_eq_self]
  | new h => rfl

theorem Registers.self {i i' : Inotify} {d : Dir} {n : Nat} (h : Registers i d n i') :
    i'.watch d = some n := by
  rw [h.watch]
  exact Function.update_self ..

theorem Registers.mono {i i' : Inotify} {d : Dir} {n : Nat} (h : Registers i d n i') {d' : Dir}
    {m : Nat} (hm : i.watch d' = some m) : i'.watch d' = some m := by
  cases h with
  | old h => exact hm
  | new h =>
    have hd : d' ≠ d := by
      intro heq
      rw [heq, h] at hm
      cases hm
    simpa [Function.update_of_ne hd] using hm

theorem enter_cases (h : enter w p r s = some t) : ∃ g n i, w.live (parts p) = some g ∧
    Registers s.ino ⟨parts p, g⟩ n i ∧
    t = { s with ino := i, curdir := n, wdirs := Function.update s.wdirs (row n) r } := by
  unfold enter add_watch at h
  obtain ⟨x, hx, rfl⟩ := Option.map_eq_some_iff.mp h
  obtain ⟨g, hg, rfl⟩ := Option.map_eq_some_iff.mp hx
  exact ⟨g, _, _, hg, registers_add_watch s.ino ⟨parts p, g⟩, rfl⟩

theorem enter_isSome (h : (w.live (parts p)).isSome) : (enter w p r s).isSome := by
  unfold enter add_watch
  rw [Option.isSome_map, Option.isSome_map]
  exact h

/-- The descriptor that `rm_watch` takes out of its queue at a directory event, if it is positive. -/
def Notify.taken (s : Notify) (wd : Int) : Int := if wd ≠ s.curdir then s.qrmdir s.curqrmd else 0

theorem leave_ino (wd : Int) (s : Notify) : (leave wd s).ino =
    if 0 < s.taken wd then s.ino.rm_watch (s.taken wd) else s.ino := by
  unfold leave Notify.taken
  by_cases h : wd ≠ s.curdir
  · rw [if_pos h, if_pos h]
    rfl
  · rw [if_neg h, if_neg h]
    rfl

@[simp] theorem leave_curdir (wd : Int) (s : Notify) : (leave wd s).curdir = s.curdir := by
  unfold leave
  split <;> rfl

@[simp] theorem leave_wdirs (wd : Int) (s : Notify) : (leave wd s).wdirs = s.wdirs := by
  unfold leave
  split <;> rfl

@[simp] theorem leave_next (wd : Int) (s : Notify) : (leave wd s).ino.next = s.ino.next := by
  rw [leave_ino]
  split <;> rfl

@[simp] theorem leave_dirOf (wd : Int) (s : Notify) : (leave wd s).ino.dirOf = s.ino.dirOf := by
  rw [leave_ino]
  split <;> rfl

theorem leave_watch {wd : Int} {d : Dir} {n : Nat} : (leave wd s).ino.watch d = some n ↔
    s.ino.watch d = some n ∧ (0 < s.taken wd → (n : Int) ≠ s.taken wd) := by
  rw [leave_ino]
  split
  · rename_i h
    simp [Inotify.rm_watch, Option.filter_eq_some_iff, h]
  · rename_i h
    simp [h]

/-- The event is taken for a directory that has been created. -/
def Created (w : World) (e : Event) (s : Notify) : Prop :=
  e.mask &&& inIgnored = 0 ∧ w.stat (s.avpath e) = some true ∧ e.mask &&& inCreate ≠ 0

instance (w : World) (e : Event) (s : Notify) : Decidable (Created w e s) :=
  inferInstanceAs (Decidable (_ ∧ _))

theorem handle_created (h : Created w e s) :
    handle sdirflag w e s = dirEvent sdirflag w e.wd (s.avpath e) s := by
  unfold handle
  rw [if_neg (not_not.mpr h.1), h.2.1]
  exact if_neg h.2.2

theorem dirEvent_cases {wd : Int} {o : Outcome} (h : dirEvent sdirflag w wd avpath s = o) :
    (dirs_check w pathMax 0 (.buf avpath) sdirflag s.dirent = none ∧ o = .never (leave wd s)) ∨
      ∃ q, dirs_check w pathMax 0 (.buf avpath) sdirflag s.dirent = some q ∧
        enterAll w avpath (found q) { leave wd s with dirent := q.2 } = o := by
  unfold dirEvent at h
  cases hq : dirs_check w pathMax 0 (.buf avpath) sdirflag s.dirent with
  | none =>
    rw [hq] at h
    exact .inl ⟨rfl, h.symm⟩
  | some q =>
    rw [hq] at h
    exact .inr ⟨q, rfl, h⟩

/-- Every other event goes on with the next one and changes at most `prevpath`. -/
theorem handle_not_created (sdirflag : Bool) (h : ¬ Created w e s) :
    ∃ prevpath call, handle sdirflag w e s = .next { s with prevpath := prevpath } call := by
  unfold handle
  split
  · exact ⟨_, _, rfl⟩
  · rename_i hign
    split
    · exact ⟨_, _, rfl⟩
    · rename_i hstat
      split
      · exact ⟨_, _, rfl⟩
      · rename_i hcreate
        exact absurd ⟨not_not.mp hign, hstat, hcreate⟩ h
    · unfold fileEvent
      split
      · exact ⟨_, _, rfl⟩
      · split
        · exact ⟨_, _, rfl⟩
        · split
          · exact ⟨_, _, rfl⟩
          · exact ⟨_, _, rfl⟩

/-- The loop over the found directories is left before its end: the current directory has the last
row, or a watch cannot be added. -/
def stops (w : World) : List Path → Notify → Bool
  | [], _ => false
  | p :: ps, s => isExhaust s.curdir || (enter w p (fformat p) s).elim true (stops w ps)

/-- The event ends the batch. -/
def Leaves (sdirflag : Bool) (w : World) (e : Event) (s : Notify) : Prop :=
  Created w e s ∧ (dirs_check w pathMax 0 (.buf (s.avpath e)) sdirflag s.dirent).elim True fun r =>
    stops w (found r) { leave e.wd s with dirent := r.2 } = true

theorem enterAll_goesOn : (enterAll w avpath ps s).goesOn = !stops w ps s := by
  induction ps generalizing s with
  | nil => rfl
  | cons p ps ih =>
    unfold enterAll stops
    cases hex : isExhaust s.curdir with
    | true => rfl
    | false =>
      cases hu : enter w p (fformat p) s with
      | none => rfl
      | some u => exact ih

theorem enterAll_call : (enterAll w avpath ps s).call = none := by
  induction ps generalizing s with
  | nil => rfl
  | cons p ps ih =>
    unfold enterAll
    split
    · rfl
    · split
      · rfl
      · exact ih

theorem goesOn_iff : (handle sdirflag w e s).goesOn = true ↔ ¬ Leaves sdirflag w e s := by
  by_cases hc : Created w e s
  · rw [handle_created hc, dirEvent, Leaves]
    cases dirs_check w pathMax 0 (.buf (s.avpath e)) sdirflag s.dirent with
    | none => simp [Outcome.goesOn, hc]
    | some r => simp [enterAll_goesOn, hc]
  · obtain ⟨p, call, h⟩ := handle_not_created sdirflag hc
    rw [h]
    exact iff_of_true rfl (fun hl => hc hl.1)

end Steps

end JitDt.Inotifylib
