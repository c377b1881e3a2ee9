import JitDt.Lib.RingIndex
import JitDt.Translib.Sftp

/-!
# The bells between watch_and_transfer and kwatcher

`sftp_put` puts a file and then a notification file with its name, the bell, under one of ten names
in turn. The sftp child takes the commands from its pipe one after the other, kwatcher the events of
the bells. In between the name of a file stands in the local notification file, which the child
reads when it comes to the command, and then in the bell, which kwatcher reads when it comes to the
event. `put_cmd` goes on as soon as the child has written anything at all.

The child is kept and no command fails; what a failed one does to the caller is in `sftp_put`.
-/

namespace JitDt.Translib.Bells

set_option autoImplicit false

open Machine
open PathName (basePart)

/-- The arguments that stay the same: the remote path and the two notification files. -/
structure Config where
  rpath : Option Path
  lntfy : Path
  rntfy : Path

/-- A call whose waits all end with some bytes from a child that is there. -/
def Config.call (cfg : Config) (fname : Path) : Call :=
  ⟨cfg.rpath, fname, some cfg.lntfy, cfg.rntfy, none, 0, .read 1, .read 1, .read 1⟩

/-- Where `sftp_put` stands: out of work, behind the `put` of a file, behind the `echo`, behind the
`put` of the bell, or behind `pwd`. -/
inductive Pc where
  | idle
  | put (fname : Path)
  | echo (fname : Path)
  | notify
  | pwd
deriving DecidableEq

structure State where
  vrsnp : Nat
  pc : Pc
  /-- The text of the local notification file. -/
  lntfy : Path
  /-- The commands that the child has not carried out. -/
  pipe : List Cmd
  /-- Some bytes from the child have not been read. -/
  reply : Bool
  /-- The names of the files that were put. -/
  uploaded : List Path
  bell : Path → Option Path
  /-- The bells whose events kwatcher has not come to. -/
  events : List Path
  /-- The names that kwatcher has found in bells. -/
  read : List (Option Path)
  /-- The names that were announced, one for each bell. -/
  notified : List Path

inductive Label where
  | put (fname : Path)
  | echo
  | notify
  | pwd
  | done
  /-- The child writes something. -/
  | reply
  | execute
  /-- kwatcher reads the bell of its next event. -/
  | transfer
deriving DecidableEq

def init (lntfy : Path) (bell : Path → Option Path) : State :=
  ⟨0, .idle, lntfy, [], false, [], bell, [], [], []⟩

/-- The child carries out a command. -/
def State.execute (s : State) : Cmd → State
  | .put fname dest => { s with uploaded := s.uploaded ++ [basePart (dest.getD ([126, 47] ++ fname))] }
  | .notify _ dest =>
    { s with
      bell := Function.update s.bell dest (some s.lntfy)
      events := s.events ++ [dest] }
  | .pwd => s
  | .quit => s

section Definitions
variable (cfg : Config)

def step (s : State) : Label → Option State
  | .put fname =>
    if s.pc = .idle then
      some { s with pipe := s.pipe ++ [(cfg.call fname).putCmd], pc := .put fname }
    else none
  | .echo =>
    match s.pc with
    | .put fname =>
      if s.reply then
        some { s with reply := false, lntfy := (cfg.call fname).notification, pc := .echo fname }
      else none
    | _ => none
  | .notify =>
    match s.pc with
    | .echo fname =>
      some { s with
        pipe := s.pipe ++ [(cfg.call fname).notifyCmd cfg.lntfy s.vrsnp]
        notified := s.notified ++ [(cfg.call fname).notification]
        pc := .notify }
    | _ => none
  | .pwd =>
    if s.pc = .notify ∧ s.reply then
      some { s with
        reply := false
        vrsnp := (s.vrsnp + 1) % fVersionM
        pipe := s.pipe ++ [.pwd]
        pc := .pwd }
    else none
  | .done => if s.pc = .pwd ∧ s.reply then some { s with reply := false, pc := .idle } else none
  | .reply => some { s with reply := true }
  | .execute =>
    match s.pipe with
    | cmd :: pipe => some ({ s with pipe := pipe }.execute cmd)
    | [] => none
  | .transfer =>
    match s.events with
    | v :: events => some { s with events := events, read := s.read ++ [s.bell v] }
    | [] => none

end Definitions

/-- The bells that the child will put. -/
def bellsOf (pipe : List Cmd) : List Path :=
  pipe.filterMap fun
    | .notify _ dest => some dest
    | _ => none

/-- What kwatcher will read if nothing changes: the bells that have rung, and the local file for
those in the pipe. -/
def State.pending (s : State) : List (Option Path) :=
  s.events.map s.bell ++ (bellsOf s.pipe).map fun _ => some s.lntfy

/-- Every name announced was read, or will be, in its turn. -/
def Faithful (s : State) : Prop := s.read ++ s.pending = s.notified.map some

/-- The local file is written again before the child has taken a bell from it, or the child puts a
bell that has not been heard. -/
def Spoils (s : State) : Label → Prop
  | .echo => bellsOf s.pipe ≠ []
  | .execute => bellsOf (s.pipe.take 1) ≠ [] ∧ fVersionM ≤ s.events.length
  | _ => False

instance (s : State) : ∀ l : Label, Decidable (Spoils s l)
  | .echo => inferInstanceAs (Decidable (_ ≠ _))
  | .execute => inferInstanceAs (Decidable (_ ∧ _))
  | .put _ => isFalse id
  | .notify => isFalse id
  | .pwd => isFalse id
  | .done => isFalse id
  | .reply => isFalse id
  | .transfer => isFalse id

/-! ## What a step does -/

section Step
variable {cfg : Config} {s t : State} {l : Label}

inductive StepCases (cfg : Config) (s : State) : Label → State → Prop where
  | put (fname : Path) (hpc : s.pc = .idle) : StepCases cfg s (.put fname)
      { s with pipe := s.pipe ++ [(cfg.call fname).putCmd], pc := .put fname }
  | echo (fname : Path) (hpc : s.pc = .put fname) (hreply : s.reply = true) :
      StepCases cfg s .echo
        { s with reply := false, lntfy := (cfg.call fname).notification, pc := .echo fname }
  | notify (fname : Path) (hpc : s.pc = .echo fname) : StepCases cfg s .notify
      { s with
        pipe := s.pipe ++ [(cfg.call fname).notifyCmd cfg.lntfy s.vrsnp]
        notified := s.notified ++ [(cfg.call fname).notification]
        pc := .notify }
  | pwd (hpc : s.pc = .notify) (hreply : s.reply = true) : StepCases cfg s .pwd
      { s with
        reply := false
        vrsnp := (s.vrsnp + 1) % fVersionM
        pipe := s.pipe ++ [.pwd]
        pc := .pwd }
  | done (hpc : s.pc = .pwd) (hreply : s.reply = true) :
      StepCases cfg s .done { s with reply := false, pc := .idle }
  | reply : StepCases cfg s .reply { s with reply := true }
  | execute (cmd : Cmd) (pipe : List Cmd) (hpipe : s.pipe = cmd :: pipe) :
      StepCases cfg s .execute ({ s with pipe := pipe }.execute cmd)
  | transfer (v : Path) (events : List Path) (hevents : s.events = v :: events) :
      StepCases cfg s .transfer { s with events := events, read := s.read ++ [s.bell v] }

theorem step_cases (h : step cfg s l = some t) : StepCases cfg s l t := by
  unfold step at h
  split at h
  · split at h
    · rw [← Option.some.inj h]
      exact .put _ ‹_›
    · cases h
  · split at h
    · split at h
      · rw [← Option.some.inj h]
        exact .echo _ ‹_› ‹_›
      · cases h
    · cases h
  · split at h
    · rw [← Option.some.inj h]
      exact .notify _ ‹_›
    · cases h
  · split at h
    · rename_i hcond
      rw [← Option.some.inj h]
      exact .pwd hcond.1 hcond.2
    · cases h
  · split at h
    · rename_i hcond
      rw [← Option.some.inj h]
      exact .done hcond.1 hcond.2
    · cases h
  · rw [← Option.some.inj h]
    exact .reply
  · split at h
    · rw [← Option.some.inj h]
      exact .execute _ _ ‹_›
    · cases h
  · split at h
    · rw [← Option.some.inj h]
      exact .transfer _ _ ‹_›
    · cases h

@[simp] theorem bellsOf_append (pipe more : List Cmd) :
    bellsOf (pipe ++ more) = bellsOf pipe ++ bellsOf more := by
  simp [bellsOf]

@[simp] theorem bellsOf_putCmd (c : Call) : bellsOf [c.putCmd] = [] := rfl

@[simp] theorem bellsOf_notifyCmd (c : Call) (lntfy : Path) (v : Nat) :
    bellsOf [c.notifyCmd lntfy v] = [c.rntfy ++ decimal v] := rfl

@[simp] theorem bellsOf_pwd : bellsOf [.pwd] = [] := rfl

/-- A call that finds its child writes the commands of `sftp_put` and leaves its version. -/
theorem exec_call (hpc : s.pc = .idle) (fname : Path) :
    ∃ t p r, exec (step cfg) s [.put fname, .reply, .echo, .notify, .reply, .pwd, .reply, .done] =
        some t ∧
      sftp_put true ⟨true, true, s.vrsnp⟩ (cfg.call fname) = some (p, r) ∧ r.done = true ∧
      t.pc = .idle ∧ t.pipe = s.pipe ++ r.trace.map Prod.fst ∧ t.vrsnp = p.vrsnp := by
  obtain ⟨vrsnp, pc, lntfy, pipe, reply, uploaded, bell, events, read, notified⟩ := s
  subst hpc
  refine ⟨_, _, _, rfl, rfl, rfl, rfl, ?_, rfl⟩
  simp [Config.call, Call.putCmd, Call.notifyCmd]

/-! ## The ten bells -/

/-- The bell of the notification with number `n`. -/
def Config.bellName (cfg : Config) (n : Nat) : Path := cfg.rntfy ++ decimal (n % fVersionM)

theorem bellName_eq_iff {m n : Nat} :
    cfg.bellName m = cfg.bellName n ↔ m % fVersionM = n % fVersionM := by
  have hdigits : ∀ v < fVersionM, ∀ w < fVersionM, decimal v = decimal w → v = w := by decide
  have hm : m % fVersionM < fVersionM := Nat.mod_lt _ (by decide)
  have hn : n % fVersionM < fVersionM := Nat.mod_lt _ (by decide)
  constructor
  · intro heq
    exact hdigits _ hm _ hn (List.append_cancel_left heq)
  · intro heq
    rw [Config.bellName, heq, Config.bellName]

/-- The version of the next notification. -/
def State.version (s : State) : Nat := if s.pc = .notify then s.vrsnp + 1 else s.vrsnp

/-- The bells that have not been read are the last ones, in their turn; behind the `echo` the local
file holds the name of the next one. -/
structure Numbered (cfg : Config) (s : State) : Prop where
  bells : s.events ++ bellsOf s.pipe =
    (List.range' s.read.length (s.events.length + (bellsOf s.pipe).length)).map cfg.bellName
  count : s.read.length + s.events.length + (bellsOf s.pipe).length = s.notified.length
  version : s.version % fVersionM = s.notified.length % fVersionM
  vrsnp : s.vrsnp < fVersionM
  echoed : ∀ fname, s.pc = .echo fname → s.lntfy = (cfg.call fname).notification

theorem numbered_init (lntfy : Path) (bell : Path → Option Path) : Numbered cfg (init lntfy bell) :=
  ⟨rfl, rfl, rfl, Nat.succ_pos 9, fun _ hpc => by cases hpc⟩

theorem Numbered.step (h : Numbered cfg s) (hstep : Bells.step cfg s l = some t) :
    Numbered cfg t := by
  obtain ⟨hbells, hcount, hversion, hvrsnp, hechoed⟩ := h
  cases step_cases hstep with
  | put fname hpc =>
    refine ⟨by simpa using hbells, by simpa using hcount, ?_, hvrsnp, fun _ hpc' => by cases hpc'⟩
    simpa [State.version, hpc] using hversion
  | echo fname hpc _ =>
    refine ⟨hbells, hcount, by simpa [State.version, hpc] using hversion, hvrsnp, ?_⟩
    intro fname' hpc'
    cases hpc'
    rfl
  | notify fname hpc =>
    have hv : s.vrsnp % fVersionM = s.notified.length % fVersionM := by
      simpa [State.version, hpc] using hversion
    have hname : cfg.rntfy ++ decimal s.vrsnp = cfg.bellName s.notified.length := by
      rw [Config.bellName, ← hv, Nat.mod_eq_of_lt hvrsnp]
    refine ⟨?_, ?_, ?_, hvrsnp, fun _ hpc' => by cases hpc'⟩
    · simp only [bellsOf_append, bellsOf_notifyCmd, List.length_append, List.length_singleton]
      rw [← List.append_assoc, hbells, ← Nat.add_assoc, List.range'_1_concat, List.map_append,
        ← Nat.add_assoc, hcount, List.map_singleton]
      exact congrArg (fun v => _ ++ [v]) hname
    · simp only [bellsOf_append, bellsOf_notifyCmd, List.length_append, List.length_singleton]
      omega
    · simp only [State.version, List.length_append, List.length_singleton]
      rw [if_pos trivial, Nat.add_mod, hv, ← Nat.add_mod]
  | pwd hpc _ =>
    refine ⟨by simpa using hbells, by simpa using hcount, ?_, Nat.mod_lt _ (Nat.succ_pos 9),
      fun _ hpc' => by cases hpc'⟩
    simpa [State.version, hpc] using hversion
  | done hpc _ =>
    refine ⟨hbells, hcount, ?_, hvrsnp, fun _ hpc' => by cases hpc'⟩
    simpa [State.version, hpc] using hversion
  | reply => exact ⟨hbells, hcount, hversion, hvrsnp, hechoed⟩
  | execute cmd pipe hpipe =>
    cases cmd with
    | notify lntfy dest =>
      have hpop : bellsOf s.pipe = dest :: bellsOf pipe := by rw [hpipe]; rfl
      rw [hpop] at hbells hcount
      refine ⟨?_, ?_, hversion, hvrsnp, hechoed⟩
      · simpa [State.execute, Nat.add_assoc, Nat.add_comm 1] using hbells
      · simp only [State.execute, List.length_append, List.length_singleton]
        simp only [List.length_cons] at hcount
        omega
    | put fname dest =>
      have hpop : bellsOf s.pipe = bellsOf pipe := by rw [hpipe]; rfl
      rw [hpop] at hbells hcount
      exact ⟨hbells, hcount, hversion, hvrsnp, hechoed⟩
    | pwd =>
      have hpop : bellsOf s.pipe = bellsOf pipe := by rw [hpipe]; rfl
      rw [hpop] at hbells hcount
      exact ⟨hbells, hcount, hversion, hvrsnp, hechoed⟩
    | quit =>
      have hpop : bellsOf s.pipe = bellsOf pipe := by rw [hpipe]; rfl
      rw [hpop] at hbells hcount
      exact ⟨hbells, hcount, hversion, hvrsnp, hechoed⟩
  | transfer v events hevents =>
    rw [hevents] at hbells hcount
    simp only [List.length_cons] at hcount
    refine ⟨?_, ?_, hversion, hvrsnp, hechoed⟩
    · rw [List.length_cons, Nat.add_right_comm, List.range'_succ] at hbells
      simpa using (List.cons.inj hbells).2
    · simp only [List.length_append, List.length_singleton]
      omega

end Step

/-! ## When every name is read in its turn -/

section Faithful
variable {cfg : Config} {s t : State} {l : Label} {ls : List Label}

/-- A file is put under a name that was not announced before. -/
def Fresh (cfg : Config) (s : State) : Label → Prop
  | .put fname => (cfg.call fname).notification ∉ s.notified
  | _ => True

instance (cfg : Config) (s : State) : ∀ l : Label, Decidable (Fresh cfg s l)
  | .put _ => inferInstanceAs (Decidable (_ ∉ _))
  | .echo => isTrue trivial
  | .notify => isTrue trivial
  | .pwd => isTrue trivial
  | .done => isTrue trivial
  | .reply => isTrue trivial
  | .execute => isTrue trivial
  | .transfer => isTrue trivial

/-- The names announced are different, and so is the one to be announced. -/
structure Distinct (cfg : Config) (s : State) : Prop where
  notified : s.notified.Nodup
  next : ∀ fname, s.pc = .put fname ∨ s.pc = .echo fname →
    (cfg.call fname).notification ∉ s.notified

theorem distinct_init (lntfy : Path) (bell : Path → Option Path) : Distinct cfg (init lntfy bell) :=
  ⟨List.nodup_nil, fun _ _ => List.not_mem_nil⟩

theorem Distinct.step (h : Distinct cfg s) (hfresh : Fresh cfg s l)
    (hstep : Bells.step cfg s l = some t) : Distinct cfg t := by
  cases step_cases hstep with
  | put fname hpc =>
    refine ⟨h.notified, ?_⟩
    rintro fname' (hput | hecho)
    · cases hput
      exact hfresh
    · cases hecho
  | echo fname hpc _ =>
    refine ⟨h.notified, ?_⟩
    rintro fname' (hput | hecho)
    · cases hput
    · cases hecho
      exact h.next fname (.inl hpc)
  | notify fname hpc =>
    refine ⟨?_, fun fname' hpc' => by simp at hpc'⟩
    refine List.nodup_append.mpr ⟨h.notified, List.nodup_singleton _, ?_⟩
    rintro name hname name' hname' rfl
    rw [List.mem_singleton.mp hname'] at hname
    exact h.next fname (.inr hpc) hname
  | pwd => exact ⟨h.notified, fun fname' hpc' => by simp at hpc'⟩
  | done => exact ⟨h.notified, fun fname' hpc' => by simp at hpc'⟩
  | reply => exact ⟨h.notified, h.next⟩
  | execute cmd pipe _ => cases cmd <;> exact ⟨h.notified, h.next⟩
  | transfer => exact ⟨h.notified, h.next⟩

theorem pending_nodup (hd : Distinct cfg s) (hf : Faithful s) : s.pending.Nodup := by
  have hall : (s.read ++ s.pending).Nodup := by
    rw [hf]
    exact hd.notified.map (Option.some_injective _)
  exact (List.nodup_append.mp hall).2.1

/-- The bell on its way to kwatcher is one that it has not heard when ten of them wait. -/
theorem mem_events_iff (hn : Numbered cfg s) {dest : Path} {rest : List Path}
    (hpipe : bellsOf s.pipe = dest :: rest) : dest ∈ s.events ↔ fVersionM ≤ s.events.length := by
  have hbells := hn.bells
  rw [hpipe, List.length_cons, ← List.range'_append_1, List.map_append] at hbells
  obtain ⟨hevents, hrest⟩ := List.append_inj hbells (by simp)
  rw [List.range'_succ, List.map_cons] at hrest
  rw [(List.cons.inj hrest).1]
  generalize s.events.length = k at *
  rw [hevents]
  constructor
  · intro hmem
    obtain ⟨n, hrange, hname⟩ := List.mem_map.mp hmem
    have hturn := bellName_eq_iff.mp hname
    rw [List.mem_range'_1] at hrange
    by_contra hlt
    exact RingIndex.mod_ne_of_lt hrange.2 (by omega) hturn
  · intro hlen
    refine List.mem_map.mpr ⟨s.read.length + k - fVersionM, ?_, ?_⟩
    · rw [List.mem_range'_1]
      exact ⟨by omega, by have : 0 < fVersionM := Nat.succ_pos 9; omega⟩
    · refine bellName_eq_iff.mpr ?_
      rw [← Nat.mod_eq_sub_mod (by omega)]

theorem map_update_eq_iff {α β : Type} [DecidableEq α] (f : α → β) (k : α) (x : β) (l : List α) :
    l.map (Function.update f k x) = l.map f ↔ (k ∈ l → f k = x) := by
  rw [List.map_inj_left]
  constructor
  · intro h hk
    have hkk := h k hk
    rw [Function.update_self] at hkk
    exact hkk.symm
  · intro h a ha
    by_cases hak : a = k
    · subst hak
      rw [Function.update_self, h ha]
    · exact Function.update_of_ne hak x f

theorem faithful_iff_pending (hf : Faithful s) (hread : t.read = s.read)
    (hnotified : t.notified = s.notified) : Faithful t ↔ t.pending = s.pending := by
  rw [Faithful, hread, hnotified, ← hf, List.append_right_inj]

theorem pending_of_faithful (hf' : Faithful t) (hf : Faithful s) (hread : t.read = s.read)
    (hnotified : t.notified = s.notified) : t.pending = s.pending :=
  (faithful_iff_pending hf hread hnotified).mp hf'

theorem faithful_of_pending (hf : Faithful s) (hread : t.read = s.read)
    (hnotified : t.notified = s.notified) (hpending : t.pending = s.pending) : Faithful t :=
  (faithful_iff_pending hf hread hnotified).mpr hpending

/-- A name that the local file holds with a bell in the pipe is replaced by another one. -/
theorem echo_spoils (hd : Distinct cfg s) (hf : Faithful s) {fname : Path}
    (hpc : s.pc = .put fname) (hbells : bellsOf s.pipe ≠ []) :
    ¬ Faithful { s with
      reply := false, lntfy := (cfg.call fname).notification, pc := .echo fname } := by
  intro hf'
  have hsame := pending_of_faithful hf' hf rfl rfl
  unfold State.pending at hsame
  rw [List.append_right_inj] at hsame
  obtain ⟨v, hv⟩ := List.exists_mem_of_ne_nil _ hbells
  have hnames := List.map_inj_left.mp hsame v hv
  have hold : some s.lntfy ∈ s.notified.map some := by
    rw [← hf]
    apply List.mem_append_right
    apply List.mem_append_right
    exact List.mem_map.mpr ⟨v, hv, rfl⟩
  rw [List.mem_map_of_injective (Option.some_injective _), ← Option.some.inj hnames] at hold
  -- the new name was not announced
  exact hd.next fname (.inl hpc) hold

theorem pending_execute {lntfy dest : Path} {pipe : List Cmd}
    (hpipe : s.pipe = .notify lntfy dest :: pipe) :
    ({ s with pipe := pipe }.execute (.notify lntfy dest)).pending = s.pending ↔
      s.events.map (Function.update s.bell dest (some s.lntfy)) = s.events.map s.bell := by
  have hpop : bellsOf s.pipe = dest :: bellsOf pipe := by rw [hpipe]; rfl
  simp [State.pending, State.execute, hpop]

theorem spoils_execute_iff (hn : Numbered cfg s) {lntfy dest : Path} {pipe : List Cmd}
    (hpipe : s.pipe = .notify lntfy dest :: pipe) : Spoils s .execute ↔ dest ∈ s.events := by
  have hpop : bellsOf s.pipe = dest :: bellsOf pipe := by rw [hpipe]; rfl
  rw [mem_events_iff hn hpop, Spoils, hpipe]
  simp [bellsOf]

/-- A name in a bell that was not heard is replaced by another one. -/
theorem execute_spoils (hn : Numbered cfg s) (hd : Distinct cfg s) (hf : Faithful s)
    {lntfy dest : Path} {pipe : List Cmd} (hpipe : s.pipe = .notify lntfy dest :: pipe)
    (hspoils : Spoils s .execute) :
    ¬ Faithful ({ s with pipe := pipe }.execute (.notify lntfy dest)) := by
  intro hf'
  have hmem := (spoils_execute_iff hn hpipe).mp hspoils
  have hsame := (pending_execute hpipe).mp (pending_of_faithful hf' hf rfl rfl)
  have hbell := (map_update_eq_iff _ _ _ _).mp hsame hmem
  -- the name in that bell would be announced twice
  have hdup := pending_nodup hd hf
  have hpop : bellsOf s.pipe = dest :: bellsOf pipe := by rw [hpipe]; rfl
  unfold State.pending at hdup
  rw [hpop] at hdup
  exact (List.nodup_append.mp hdup).2.2 _ (List.mem_map_of_mem hmem) (some s.lntfy)
    List.mem_cons_self hbell

theorem Faithful.step (hf : Faithful s) (hn : Numbered cfg s) (hnot : ¬ Spoils s l)
    (hstep : Bells.step cfg s l = some t) : Faithful t := by
  cases step_cases hstep with
  | put fname hpc =>
    refine faithful_of_pending hf rfl rfl ?_
    simp [State.pending]
  | echo fname hpc _ =>
    refine faithful_of_pending hf rfl rfl ?_
    have hbells : bellsOf s.pipe = [] := not_not.mp hnot
    unfold State.pending
    rw [hbells]
    rfl
  | notify fname hpc =>
    have hall := hf
    unfold Faithful State.pending at hall ⊢
    simp only [bellsOf_append, bellsOf_notifyCmd, List.map_append, List.map_singleton]
    rw [← List.append_assoc, ← List.append_assoc, List.append_assoc s.read, hall, hn.echoed fname hpc]
  | pwd =>
    refine faithful_of_pending hf rfl rfl ?_
    simp [State.pending]
  | done => exact hf
  | reply => exact hf
  | execute cmd pipe hpipe =>
    cases cmd with
    | notify lntfy dest =>
      refine faithful_of_pending hf rfl rfl ?_
      rw [pending_execute hpipe, map_update_eq_iff]
      intro hmem
      exact absurd ((spoils_execute_iff hn hpipe).mpr hmem) hnot
    | put fname dest =>
      refine faithful_of_pending hf rfl rfl ?_
      simp [State.pending, State.execute, hpipe, bellsOf]
    | pwd =>
      refine faithful_of_pending hf rfl rfl ?_
      simp [State.pending, State.execute, hpipe, bellsOf]
    | quit =>
      refine faithful_of_pending hf rfl rfl ?_
      simp [State.pending, State.execute, hpipe, bellsOf]
  | transfer v events hevents =>
    have hall := hf
    unfold Faithful State.pending at hall ⊢
    rw [hevents] at hall
    simpa using hall

theorem faithful_step_iff (hn : Numbered cfg s) (hd : Distinct cfg s) (hf : Faithful s)
    (hstep : step cfg s l = some t) : Faithful t ↔ ¬ Spoils s l := by
  refine ⟨?_, fun hnot => hf.step hn hnot hstep⟩
  intro hf' hspoils
  cases step_cases hstep with
  | echo fname hpc _ => exact echo_spoils hd hf hpc hspoils hf'
  | execute cmd pipe hpipe =>
    cases cmd with
    | notify lntfy dest => exact execute_spoils hn hd hf hpipe hspoils hf'
    | put fname dest => simp [Spoils, hpipe, bellsOf] at hspoils
    | pwd => simp [Spoils, hpipe, bellsOf] at hspoils
    | quit => simp [Spoils, hpipe, bellsOf] at hspoils
  | put => exact hspoils
  | notify => exact hspoils
  | pwd => exact hspoils
  | done => exact hspoils
  | reply => exact hspoils
  | transfer => exact hspoils

end Faithful

/-! ## A child that keeps quiet while it works -/

/-- The local file is not written with a bell in the pipe. -/
def Held (s : State) : Label → Prop
  | .echo => bellsOf s.pipe = []
  | _ => True

/-- The child writes only when it has carried out everything. -/
def Quiet (s : State) : Label → Prop
  | .reply => s.pipe = []
  | _ => True

/-- The child puts a bell with fewer than ten of them waiting. -/
def Heard (s : State) : Label → Prop
  | .execute => bellsOf (s.pipe.take 1) ≠ [] → s.events.length < fVersionM
  | _ => True

instance (s : State) : ∀ l : Label, Decidable (Heard s l)
  | .execute => inferInstanceAs (Decidable (_ → _))
  | .put _ => isTrue trivial
  | .echo => isTrue trivial
  | .notify => isTrue trivial
  | .pwd => isTrue trivial
  | .done => isTrue trivial
  | .reply => isTrue trivial
  | .transfer => isTrue trivial

instance (s : State) : ∀ l : Label, Decidable (Quiet s l)
  | .reply => inferInstanceAs (Decidable (_ = _))
  | .put _ => isTrue trivial
  | .echo => isTrue trivial
  | .notify => isTrue trivial
  | .pwd => isTrue trivial
  | .done => isTrue trivial
  | .execute => isTrue trivial
  | .transfer => isTrue trivial

section Held
variable {cfg : Config} {s t : State} {l : Label} {ls : List Label}

/-- No bell is in the pipe but between the `put` of one and the answer to `pwd`. -/
structure Settled (s : State) : Prop where
  work : s.pc ≠ .notify → s.pc ≠ .pwd → bellsOf s.pipe = []
  pwd : s.pc = .pwd → s.reply = true → bellsOf s.pipe = []

theorem settled_init (lntfy : Path) (bell : Path → Option Path) : Settled (init lntfy bell) :=
  ⟨fun _ _ => rfl, fun _ _ => rfl⟩

theorem Settled.step (h : Settled s) (hquiet : Quiet s l) (hstep : Bells.step cfg s l = some t) :
    Settled t := by
  cases step_cases hstep with
  | put fname hpc =>
    refine ⟨fun _ _ => ?_, fun hpc' => by cases hpc'⟩
    simpa using h.work (by simp [hpc]) (by simp [hpc])
  | echo fname hpc _ =>
    exact ⟨fun _ _ => h.work (by simp [hpc]) (by simp [hpc]), fun hpc' => by cases hpc'⟩
  | notify => exact ⟨fun hne => absurd rfl hne, fun hpc' => by cases hpc'⟩
  | pwd => exact ⟨fun _ hne => absurd rfl hne, fun _ hreply => by cases hreply⟩
  | done hpc hreply => exact ⟨fun _ _ => h.pwd hpc hreply, fun hpc' => by cases hpc'⟩
  | reply =>
    have hpipe : bellsOf s.pipe = [] := by rw [show s.pipe = [] from hquiet]; rfl
    exact ⟨h.work, fun _ _ => hpipe⟩
  | execute cmd pipe hpipe =>
    have hpop : bellsOf s.pipe = [] → bellsOf pipe = [] := by
      intro hnone
      rw [hpipe, ← List.singleton_append, bellsOf_append] at hnone
      exact (List.append_eq_nil_iff.mp hnone).2
    cases cmd <;>
      exact ⟨fun hnot hpwd => hpop (h.work hnot hpwd), fun hpwd hreply => hpop (h.pwd hpwd hreply)⟩
  | transfer => exact ⟨h.work, h.pwd⟩

/-- The name under which a command puts a file. -/
def uploadOf : Cmd → List Path
  | .put fname dest => [basePart (dest.getD ([126, 47] ++ fname))]
  | _ => []

/-- Each bell in the pipe comes behind the file that the local file names. -/
def Behind (lntfy : Path) : List Path → List Cmd → Prop
  | _, [] => True
  | uploaded, cmd :: pipe =>
    (bellsOf [cmd] ≠ [] → lntfy ∈ uploaded) ∧ Behind lntfy (uploaded ++ uploadOf cmd) pipe

theorem behind_append_iff {lntfy : Path} {uploaded : List Path} {pipe more : List Cmd} :
    Behind lntfy uploaded (pipe ++ more) ↔
      Behind lntfy uploaded pipe ∧ Behind lntfy (uploaded ++ pipe.flatMap uploadOf) more := by
  induction pipe generalizing uploaded with
  | nil => simp [Behind]
  | cons cmd pipe ih => simp [Behind, ih, and_assoc]

theorem behind_of_no_bell {lntfy : Path} {uploaded : List Path} {pipe : List Cmd}
    (h : bellsOf pipe = []) : Behind lntfy uploaded pipe := by
  induction pipe generalizing uploaded with
  | nil => trivial
  | cons cmd pipe ih =>
    rw [← List.singleton_append, bellsOf_append] at h
    obtain ⟨hcmd, hpipe⟩ := List.append_eq_nil_iff.mp h
    exact ⟨fun hne => absurd hcmd hne, ih hpipe⟩

theorem execute_pc (s : State) (cmd : Cmd) : (s.execute cmd).pc = s.pc := by cases cmd <;> rfl

theorem execute_lntfy (s : State) (cmd : Cmd) : (s.execute cmd).lntfy = s.lntfy := by
  cases cmd <;> rfl

theorem execute_pipe (s : State) (cmd : Cmd) : (s.execute cmd).pipe = s.pipe := by cases cmd <;> rfl

theorem execute_read (s : State) (cmd : Cmd) : (s.execute cmd).read = s.read := by cases cmd <;> rfl

theorem execute_uploaded (s : State) (cmd : Cmd) :
    (s.execute cmd).uploaded = s.uploaded ++ uploadOf cmd := by
  cases cmd <;> simp [State.execute, uploadOf]

theorem uploadOf_putCmd (fname : Path) :
    uploadOf (cfg.call fname).putCmd = [(cfg.call fname).notification] := by
  cases hrpath : cfg.rpath with
  | none => simp [uploadOf, Call.putCmd, Call.notification, Config.call, hrpath]
  | some rpath => simp [uploadOf, Call.putCmd, Call.notification, Config.call, hrpath]

/-- What the bells hold, and will hold, are names of files that are there by then. -/
structure Known (cfg : Config) (s : State) : Prop where
  next : ∀ fname, s.pc = .put fname ∨ s.pc = .echo fname →
    (cfg.call fname).notification ∈ s.uploaded ++ s.pipe.flatMap uploadOf
  pipe : Behind s.lntfy s.uploaded s.pipe
  events : ∀ v ∈ s.events, ∃ name ∈ s.uploaded, s.bell v = some name
  read : ∀ x ∈ s.read, ∃ name ∈ s.uploaded, x = some name

theorem known_init (lntfy : Path) (bell : Path → Option Path) : Known cfg (init lntfy bell) where
  next := fun _ hpc => by rcases hpc with hpc | hpc <;> cases hpc
  pipe := trivial
  events := fun _ hv => absurd hv List.not_mem_nil
  read := fun _ hx => absurd hx List.not_mem_nil

theorem Known.execute (h : Known cfg s) {cmd : Cmd} {pipe : List Cmd} (hpipe : s.pipe = cmd :: pipe) :
    Known cfg ({ s with pipe := pipe }.execute cmd) := by
  have hbehind := h.pipe
  rw [hpipe] at hbehind
  have hnames : (s.uploaded ++ uploadOf cmd) ++ pipe.flatMap uploadOf =
      s.uploaded ++ s.pipe.flatMap uploadOf := by
    rw [hpipe, List.flatMap_cons, List.append_assoc]
  have hmono : ∀ {p : Path → Prop}, (∃ name ∈ s.uploaded, p name) →
      ∃ name ∈ s.uploaded ++ uploadOf cmd, p name := by
    rintro p ⟨name, hname, hp⟩
    exact ⟨name, List.mem_append_left _ hname, hp⟩
  refine ⟨?_, ?_, ?_, ?_⟩
  · intro fname hpc
    rw [execute_pc] at hpc
    rw [execute_uploaded, execute_pipe, hnames]
    exact h.next fname hpc
  · rw [execute_uploaded, execute_pipe, execute_lntfy]
    exact hbehind.2
  · intro v hv
    rw [execute_uploaded]
    apply hmono
    cases cmd with
    | notify lntfy dest =>
      by_cases hdest : v = dest
      · refine ⟨s.lntfy, hbehind.1 (by simp [bellsOf]), ?_⟩
        rw [hdest]
        exact Function.update_self _ _ _
      · obtain ⟨name, hname, hbell⟩ := h.events v <| by
          rcases List.mem_append.mp hv with hold | hnew
          · exact hold
          · exact absurd (List.mem_singleton.mp hnew) hdest
        refine ⟨name, hname, ?_⟩
        rw [← hbell]
        exact Function.update_of_ne hdest _ _
    | put fname dest => exact h.events v hv
    | pwd => exact h.events v hv
    | quit => exact h.events v hv
  · intro x hx
    rw [execute_read] at hx
    rw [execute_uploaded]
    exact hmono (h.read x hx)

theorem Known.step (h : Known cfg s) (hn : Numbered cfg s) (hheld : Held s l)
    (hstep : Bells.step cfg s l = some t) : Known cfg t := by
  cases step_cases hstep with
  | put fname hpc =>
    refine ⟨?_, ?_, h.events, h.read⟩
    · rintro fname' (hput | hecho)
      · cases hput
        simp [uploadOf_putCmd]
      · cases hecho
    · exact behind_append_iff.mpr ⟨h.pipe, behind_of_no_bell rfl⟩
  | echo fname hpc _ =>
    refine ⟨?_, behind_of_no_bell hheld, h.events, h.read⟩
    rintro fname' (hput | hecho)
    · cases hput
    · cases hecho
      exact h.next fname (.inl hpc)
  | notify fname hpc =>
    refine ⟨?_, ?_, h.events, h.read⟩
    · rintro fname' (hput | hecho)
      · cases hput
      · cases hecho
    · refine behind_append_iff.mpr ⟨h.pipe, ?_, trivial⟩
      intro _
      rw [hn.echoed fname hpc]
      exact h.next fname (.inr hpc)
  | pwd =>
    refine ⟨?_, ?_, h.events, h.read⟩
    · rintro fname' (hput | hecho)
      · cases hput
      · cases hecho
    · exact behind_append_iff.mpr ⟨h.pipe, behind_of_no_bell rfl⟩
  | done =>
    refine ⟨?_, h.pipe, h.events, h.read⟩
    rintro fname' (hput | hecho)
    · cases hput
    · cases hecho
  | reply => exact ⟨h.next, h.pipe, h.events, h.read⟩
  | execute cmd pipe hpipe => exact h.execute hpipe
  | transfer v events hevents =>
    refine ⟨h.next, h.pipe, ?_, ?_⟩
    · intro w hw
      exact h.events w (hevents ▸ List.mem_cons_of_mem v hw)
    · intro x hx
      rcases List.mem_append.mp hx with hold | hnew
      · exact h.read x hold
      · rw [List.mem_singleton.mp hnew]
        exact h.events v (hevents ▸ List.mem_cons_self)

theorem Settled.held (h : Settled s) (hstep : Bells.step cfg s l = some t) : Held s l := by
  cases step_cases hstep with
  | echo fname hpc _ => exact h.work (by simp [hpc]) (by simp [hpc])
  | put => trivial
  | notify => trivial
  | pwd => trivial
  | done => trivial
  | reply => trivial
  | execute => trivial
  | transfer => trivial

theorem not_spoils (hheld : Held s l) (hheard : Heard s l) : ¬ Spoils s l := by
  cases l with
  | echo => exact not_not.mpr hheld
  | execute => exact fun hspoils => absurd hspoils.2 (Nat.not_le.mpr (hheard hspoils.1))
  | _ => exact id

theorem exec_known (lntfy : Path) (bell : Path → Option Path)
    (hquiet : Along (step cfg) Quiet (init lntfy bell) ls)
    (h : exec (step cfg) (init lntfy bell) ls = some t) : Known cfg t := by
  refine (exec_invariant_along (I := fun s => Settled s ∧ Numbered cfg s ∧ Known cfg s) ?_
    ⟨settled_init lntfy bell, numbered_init lntfy bell, known_init lntfy bell⟩ hquiet h).2.2
  rintro s l u ⟨hs, hn, hk⟩ hl hstep
  exact ⟨hs.step hl hstep, hn.step hstep, hk.step hn (hs.held hstep) hstep⟩

end Held

/-! ## Two files -/

def radar : Config := ⟨some [100, 47], [108], [114]⟩

/-- Two calls with a child that answers when it is done. -/
def twoFiles : List Label :=
  [.put [97], .execute, .reply, .echo, .notify, .execute, .reply, .pwd, .execute, .reply, .done,
    .put [98], .transfer, .execute, .reply, .echo, .notify, .execute, .transfer]

/-- The child writes while the first bell is in its pipe. -/
def twoFilesLate : List Label :=
  [.put [97], .execute, .reply, .echo, .notify, .reply, .pwd, .reply, .done, .put [98], .reply,
    .echo, .execute, .transfer]

end JitDt.Translib.Bells
