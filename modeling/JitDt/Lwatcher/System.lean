import JitDt.Lib.Machine
import JitDt.Lwatcher.Get
import JitDt.Misclib.HistoryOrder

/-!
# lwatcher: the watcher and the transfer thread

The machine interleaves the two threads of lwatcher. A step is one critical section
of the history ring or one piece of unlocked code of `transfer`; in particular the
check of `hp->fname` is a step of its own between `histget` and `histwait`, and the
reply to a request is another one. What the kernel and the client decide is in the
labels: arriving files, commands, descriptors, what `open` and `read` do with a file,
and whether a reply could be sent.
-/

namespace JitDt.Lwatcher

set_option autoImplicit false

open Misclib Jitcclient Machine

inductive Request where
  | open (type : Int32)
  | get (opt : Opt)

inductive Pc where
  | accept
  | command
  | histget (req : Request)
  | histgetWait (req : Request)
  | test (req : Request) (hp : Nat)
  | histwait (req : Request)
  | histwaitWait (req : Request)
  | openFile (fname : Path)
  | serve (opt : Opt) (hp : Nat)
  /-- About to call `histremove`, after a reply to `CMD_GET` or on `CMD_CLOSE`. -/
  | histremove (cmd : Cmd)
  | exited

structure State where
  ring : Ring
  /-- The variable `nsize` of `transfer`, which outlives the connections. -/
  nsize : Nat
  pc : Pc
  sock : Nat
  tfd : Option Nat
  fds : List Nat

inductive Label where
  | histput (path : Path) (dt : Int64) (tent : Int)
  | accept (sock : Nat)
  | command (cmd : Cmd) (opt : Opt)
  | histget
  | histgetWake
  | test
  | histwait
  | histwaitWake
  | openReply (fd : Option Nat)
  | getReply (files : Fin transoptSize → FileRead) (heap : Memory) (sent : Bool)
  | histremove

/-- Both threads after `histinit(nh)`, with `sync_nsize() = sn`. -/
def init (nh : Int) (sn : Nat) : State where
  ring := histinit nh .static
  nsize := sn
  pc := .accept
  sock := 0
  tfd := none
  fds := []

namespace State

def close (s : State) (fd : Nat) : State := { s with fds := s.fds.erase fd }

/-- The switch over the command `trans_getcmd` found. -/
def dispatch (s : State) (cmd : Cmd) (opt : Opt) : State :=
  match cmd with
  | .open => { s with pc := .histget (.open (firstOpt opt)) }
  | .get => { s with pc := .histget (.get opt) }
  | .close => { s with pc := .histremove .close }
  | .exit => { s with pc := .accept }
  -- `CMD_READ` answers from `tfd`; the others are not implemented
  | .read => s
  | .status => s
  | .reply => s

def got (s : State) (req : Request) : Ring × Option Nat → State
  | (r, some hp) => { s with ring := r, pc := .test req hp }
  | (r, none) => { s with ring := r, pc := .histgetWait req }

def test (s : State) (req : Request) (hp : Nat) : Option State :=
  match req with
  | .open type =>
    if type < 0 then none
    else do
      match ← fnameAt (s.ring.history hp) type.toInt.toNat with
      | none => some { s with pc := .histwait req }
      | some fname => some { s with pc := .openFile fname }
  | .get opt => do
    if ← arrived s.nsize (s.ring.history hp) then some { s with pc := .serve opt hp }
    else some { s with pc := .histwait req }

/-- The reply to `CMD_GET`; a failed one ends the connection and keeps the entry. -/
def reply (s : State) (opt : Opt) (hp : Nat) (files : Fin transoptSize → FileRead) (heap : Memory)
    (sent : Bool) : Option State := do
  match ← serveGet s.nsize (s.ring.history hp) opt files heap with
  | (n, none) => some { s with nsize := n, pc := .exited }
  | (n, some _) =>
    if sent then some { s with nsize := n, pc := .histremove .get }
    else some { s.close s.sock with nsize := n, pc := .accept }

def removed (s : State) (cmd : Cmd) (r : Ring) : State :=
  match cmd with
  | .get => { s.close s.sock with ring := r, pc := .accept }
  | _ =>
    match s.tfd with
    | some fd => { s.close fd with ring := r, tfd := none, pc := .accept }
    | none => { s with ring := r, pc := .accept }

end State

def step (s : State) (l : Label) : Option State :=
  match s.pc, l with
  | .exited, _ => none
  | _, .histput path dt tent => do
    let r ← Misclib.histput path dt tent s.ring
    some { s with ring := r }
  | .accept, .accept sock =>
    some { s with sock := sock, tfd := none, fds := sock :: s.fds, pc := .command }
  | .command, .command cmd opt => some (s.dispatch cmd opt)
  | .histget req, .histget => do
    let res ← Misclib.histget s.ring
    some (s.got req res)
  | .histgetWait req, .histgetWake => do
    let res ← histgetResume s.ring
    some (s.got req res)
  | .test req hp, .test => s.test req hp
  | .histwait req, .histwait => some { s with ring := Misclib.histwait s.ring, pc := .histwaitWait req }
  | .histwaitWait req, .histwaitWake => do
    let r ← histwaitResume s.ring
    some { s with ring := r, pc := .histget req }
  | .openFile _, .openReply (some fd) => some { s with tfd := some fd, fds := fd :: s.fds, pc := .command }
  | .openFile _, .openReply none => some { s with tfd := none, pc := .command }
  | .serve opt hp, .getReply files heap sent => s.reply opt hp files heap sent
  | .histremove cmd, .histremove => do
    let r ← Misclib.histremove s.ring
    some (s.removed cmd r)
  | _, _ => none

/-- The entry holds what the request waits for. -/
def Fulfils (h : HistData) (nsize : Nat) : Request → Prop
  | .open type => (fnameAt h type.toInt.toNat).join.isSome = true
  | .get _ => arrived nsize h = some true

instance (h : HistData) (nsize : Nat) (req : Request) : Decidable (Fulfils h nsize req) :=
  match req with
  | .open _ => inferInstanceAs (Decidable (_ = _))
  | .get _ => inferInstanceAs (Decidable (_ = _))

/-- What the look at an entry leads to. -/
inductive TestCases (s : State) (req : Request) (hp : Nat) : State → Prop where
  | missing (h : ¬ Fulfils (s.ring.history hp) s.nsize req) :
      TestCases s req hp { s with pc := .histwait req }
  | opened (fname : Path) : TestCases s req hp { s with pc := .openFile fname }
  | served (opt : Opt) (h : arrived s.nsize (s.ring.history hp) = some true) :
      TestCases s req hp { s with pc := .serve opt hp }

theorem test_cases {s s' : State} {req : Request} {hp : Nat} (h : s.test req hp = some s') :
    TestCases s req hp s' := by
  cases req with
  | «open» type =>
    simp only [State.test] at h
    split at h
    · cases h
    obtain ⟨f, hf, h⟩ := Option.bind_eq_some_iff.mp h
    cases f with
    | some fname =>
      rw [← Option.some.inj h]
      exact .opened fname
    | none =>
      rw [← Option.some.inj h]
      refine .missing ?_
      change ¬ (fnameAt _ _).join.isSome = true
      rw [hf]
      simp
  | get opt =>
    simp only [State.test] at h
    obtain ⟨b, hb, h⟩ := Option.bind_eq_some_iff.mp h
    cases b with
    | true =>
      rw [← Option.some.inj h]
      exact .served opt hb
    | false =>
      rw [← Option.some.inj h]
      refine .missing ?_
      change ¬ arrived _ _ = some true
      rw [hb]
      simp

/-! What one step can do, said once. -/

inductive StepCases (s : State) : Label → State → Prop where
  | histput (path : Path) (dt : Int64) (tent : Int) (r : Ring)
      (h : Misclib.histput path dt tent s.ring = some r) :
      StepCases s (.histput path dt tent) { s with ring := r }
  | accept (sock : Nat) (hpc : s.pc = .accept) :
      StepCases s (.accept sock) { s with sock := sock, tfd := none, fds := sock :: s.fds, pc := .command }
  | command (cmd : Cmd) (opt : Opt) (hpc : s.pc = .command) :
      StepCases s (.command cmd opt) (s.dispatch cmd opt)
  | histget (req : Request) (res : Ring × Option Nat) (hpc : s.pc = .histget req)
      (h : Misclib.histget s.ring = some res) : StepCases s .histget (s.got req res)
  | histgetWake (req : Request) (res : Ring × Option Nat) (hpc : s.pc = .histgetWait req)
      (h : histgetResume s.ring = some res) : StepCases s .histgetWake (s.got req res)
  | test (req : Request) (hp : Nat) (s' : State) (hpc : s.pc = .test req hp)
      (h : s.test req hp = some s') : StepCases s .test s'
  | histwait (req : Request) (hpc : s.pc = .histwait req) :
      StepCases s .histwait { s with ring := Misclib.histwait s.ring, pc := .histwaitWait req }
  | histwaitWake (req : Request) (r : Ring) (hpc : s.pc = .histwaitWait req)
      (h : histwaitResume s.ring = some r) :
      StepCases s .histwaitWake { s with ring := r, pc := .histget req }
  | opened (fname : Path) (fd : Nat) (hpc : s.pc = .openFile fname) :
      StepCases s (.openReply (some fd)) { s with tfd := some fd, fds := fd :: s.fds, pc := .command }
  | notOpened (fname : Path) (hpc : s.pc = .openFile fname) :
      StepCases s (.openReply none) { s with tfd := none, pc := .command }
  | getReply (files : Fin transoptSize → FileRead) (heap : Memory) (sent : Bool) (opt : Opt)
      (hp : Nat) (s' : State) (hpc : s.pc = .serve opt hp)
      (h : s.reply opt hp files heap sent = some s') : StepCases s (.getReply files heap sent) s'
  | histremove (cmd : Cmd) (r : Ring) (hpc : s.pc = .histremove cmd)
      (h : Misclib.histremove s.ring = some r) : StepCases s .histremove (s.removed cmd r)

theorem step_cases {s s' : State} {l : Label} (h : step s l = some s') : StepCases s l s' := by
  unfold step at h
  split at h
  · cases h
  · obtain ⟨r, hr, h⟩ := Option.bind_eq_some_iff.mp h
    rw [← Option.some.inj h]
    exact .histput _ _ _ r hr
  · rw [← Option.some.inj h]
    exact .accept _ ‹_›
  · rw [← Option.some.inj h]
    exact .command _ _ ‹_›
  · obtain ⟨res, hres, h⟩ := Option.bind_eq_some_iff.mp h
    rw [← Option.some.inj h]
    exact .histget _ res ‹_› hres
  · obtain ⟨res, hres, h⟩ := Option.bind_eq_some_iff.mp h
    rw [← Option.some.inj h]
    exact .histgetWake _ res ‹_› hres
  · exact .test _ _ _ ‹_› h
  · rw [← Option.some.inj h]
    exact .histwait _ ‹_›
  · obtain ⟨r, hr, h⟩ := Option.bind_eq_some_iff.mp h
    rw [← Option.some.inj h]
    exact .histwaitWake _ r ‹_› hr
  · rw [← Option.some.inj h]
    exact .opened _ _ ‹_›
  · rw [← Option.some.inj h]
    exact .notOpened _ ‹_›
  · exact .getReply _ _ _ _ _ _ ‹_› h
  · obtain ⟨r, hr, h⟩ := Option.bind_eq_some_iff.mp h
    rw [← Option.some.inj h]
    exact .histremove _ r ‹_› hr
  · cases h

/-! What one step does to the ring, and what it does to `nsize`. -/

structure SameRing (r r' : Ring) : Prop where
  history : r'.history = r.history
  nhist : r'.nhist = r.nhist
  prodhistp : r'.prodhistp = r.prodhistp
  conshistp : r'.conshistp = r.conshistp
  numhist : r'.numhist = r.numhist

theorem SameRing.refl (r : Ring) : SameRing r r := ⟨rfl, rfl, rfl, rfl, rfl⟩

theorem SameRing.at {r r' : Ring} {P C : Nat} (h : SameRing r r') (hat : At r P C) : At r' P C :=
  hat.congr h.nhist h.prodhistp h.conshistp h.numhist fun i => by
    rw [Ring.date, Ring.date, h.history]

theorem same_histget {r r' : Ring} {hp : Option Nat} (h : Misclib.histget r = some (r', hp)) :
    SameRing r r' := by
  unfold Misclib.histget at h
  split at h
  · obtain ⟨_, _, h⟩ := Option.bind_eq_some_iff.mp h
    simp only [Option.some.injEq, Prod.mk.injEq] at h
    rw [← h.1]
    exact .refl r
  · simp only [Option.some.injEq, Prod.mk.injEq] at h
    rw [← h.1]
    exact ⟨rfl, rfl, rfl, rfl, rfl⟩

/-- A thread that wakes up in `histget` goes on as if it had just called it. -/
theorem histget_of_resume {r : Ring} {res : Ring × Option Nat} (h : histgetResume r = some res) :
    ∃ r', Misclib.histget r' = some res := by
  obtain ⟨c, _, h⟩ := Option.bind_eq_some_iff.mp h
  exact ⟨_, h⟩

theorem same_histgetResume {r r' : Ring} {hp : Option Nat}
    (h : histgetResume r = some (r', hp)) : SameRing r r' := by
  obtain ⟨_, _, h⟩ := Option.bind_eq_some_iff.mp h
  have := same_histget h
  exact ⟨this.history, this.nhist, this.prodhistp, this.conshistp, this.numhist⟩

theorem same_histwaitResume {r r' : Ring} (h : histwaitResume r = some r') : SameRing r r' := by
  obtain ⟨_, _, h⟩ := Option.bind_eq_some_iff.mp h
  rw [← Option.some.inj h]
  exact ⟨rfl, rfl, rfl, rfl, rfl⟩

theorem ring_got (s : State) (req : Request) (res : Ring × Option Nat) :
    (s.got req res).ring = res.1 ∧ (s.got req res).nsize = s.nsize := by
  obtain ⟨r, hp⟩ := res
  cases hp <;> exact ⟨rfl, rfl⟩

theorem ring_test {s s' : State} {req : Request} {hp : Nat} (h : s.test req hp = some s') :
    s'.ring = s.ring ∧ s'.nsize = s.nsize := by
  cases test_cases h <;> exact ⟨rfl, rfl⟩

theorem ring_reply {s s' : State} {opt : Opt} {hp : Nat} {files : Fin transoptSize → FileRead}
    {heap : Memory} {sent : Bool} (h : s.reply opt hp files heap sent = some s') :
    s'.ring = s.ring ∧ s'.nsize = min s.nsize (leading opt) := by
  obtain ⟨⟨n, r⟩, hs, h⟩ := Option.bind_eq_some_iff.mp h
  have hn : n = min s.nsize (leading opt) := serveGet_index hs
  cases r with
  | none =>
    simp only [Option.some.injEq] at h
    rw [← h]
    exact ⟨rfl, hn⟩
  | some r =>
    cases sent <;> (simp at h; rw [← h]; exact ⟨rfl, hn⟩)

theorem pc_reply {s s' : State} {opt : Opt} {hp : Nat} {files : Fin transoptSize → FileRead}
    {heap : Memory} {sent : Bool} (h : s.reply opt hp files heap sent = some s') :
    s'.pc = .exited ∨ s'.pc = .histremove .get ∨ s'.pc = .accept := by
  obtain ⟨⟨n, r⟩, _, h⟩ := Option.bind_eq_some_iff.mp h
  cases r with
  | none =>
    simp only [Option.some.injEq] at h
    rw [← h]
    exact Or.inl rfl
  | some r =>
    cases sent with
    | false =>
      simp only [Bool.false_eq_true, if_false, Option.some.injEq] at h
      rw [← h]
      exact Or.inr (Or.inr rfl)
    | true =>
      simp only [if_true, Option.some.injEq] at h
      rw [← h]
      exact Or.inr (Or.inl rfl)

theorem ring_dispatch (s : State) (cmd : Cmd) (opt : Opt) :
    (s.dispatch cmd opt).ring = s.ring ∧ (s.dispatch cmd opt).nsize = s.nsize := by
  cases cmd <;> exact ⟨rfl, rfl⟩

theorem ring_removed (s : State) (cmd : Cmd) (r : Ring) :
    (s.removed cmd r).ring = r ∧ (s.removed cmd r).nsize = s.nsize := by
  unfold State.removed
  split
  · exact ⟨rfl, rfl⟩
  · split <;> exact ⟨rfl, rfl⟩

theorem pc_removed (s : State) (cmd : Cmd) (r : Ring) : (s.removed cmd r).pc = .accept := by
  unfold State.removed
  split
  · rfl
  · split <;> rfl

/-- Everything a step can do to the ring and to `nsize`. -/
inductive StepEffect (s : State) (l : Label) (s' : State) : Prop where
  | histput (path : Path) (dt : Int64) (tent : Int) (hl : l = .histput path dt tent)
      (h : Misclib.histput path dt tent s.ring = some s'.ring) (hn : s'.nsize = s.nsize)
      (hpc : s'.pc = s.pc)
  | histremove (hl : l = .histremove) (h : _histremove s.ring = some s'.ring)
      (hn : s'.nsize = s.nsize)
  | getReply (files : Fin transoptSize → FileRead) (heap : Memory) (sent : Bool) (opt : Opt)
      (hp : Nat) (hl : l = .getReply files heap sent) (hpc : s.pc = .serve opt hp)
      (h : s'.ring = s.ring) (hn : s'.nsize = min s.nsize (leading opt))
  | quiet (hput : ∀ path dt tent, l ≠ .histput path dt tent) (hrem : l ≠ .histremove)
      (hrep : ∀ files heap sent, l ≠ .getReply files heap sent) (h : SameRing s.ring s'.ring)
      (hn : s'.nsize = s.nsize)

theorem step_effect {s s' : State} {l : Label} (h : step s l = some s') : StepEffect s l s' := by
  cases step_cases h with
  | histput path dt tent r hr => exact .histput path dt tent rfl hr rfl rfl
  | accept sock _ => exact .quiet (by simp) (by simp) (by simp) (.refl _) rfl
  | command cmd opt _ =>
    obtain ⟨hr, hn⟩ := ring_dispatch s cmd opt
    exact .quiet (by simp) (by simp) (by simp) (by rw [hr]; exact .refl _) hn
  | histget req res _ hres =>
    obtain ⟨hr, hn⟩ := ring_got s req res
    exact .quiet (by simp) (by simp) (by simp) (by rw [hr]; exact same_histget hres) hn
  | histgetWake req res _ hres =>
    obtain ⟨hr, hn⟩ := ring_got s req res
    exact .quiet (by simp) (by simp) (by simp) (by rw [hr]; exact same_histgetResume hres) hn
  | test req hp _ _ ht =>
    obtain ⟨hr, hn⟩ := ring_test ht
    exact .quiet (by simp) (by simp) (by simp) (by rw [hr]; exact .refl _) hn
  | histwait req _ => exact .quiet (by simp) (by simp) (by simp) ⟨rfl, rfl, rfl, rfl, rfl⟩ rfl
  | histwaitWake req r _ hr =>
    exact .quiet (by simp) (by simp) (by simp) (same_histwaitResume hr) rfl
  | opened fname fd _ => exact .quiet (by simp) (by simp) (by simp) (.refl _) rfl
  | notOpened fname _ => exact .quiet (by simp) (by simp) (by simp) (.refl _) rfl
  | getReply files heap sent opt hp _ hpc hrep =>
    obtain ⟨hr, hn⟩ := ring_reply hrep
    exact .getReply files heap sent opt hp rfl hpc hr hn
  | histremove cmd r _ hrem =>
    obtain ⟨hr, hn⟩ := ring_removed s cmd r
    exact .histremove rfl (by rw [hr]; exact hrem) hn

theorem at_step {s s' : State} {l : Label} (h : ∃ P C, At s.ring P C)
    (hstep : step s l = some s') : ∃ P C, At s'.ring P C := by
  obtain ⟨P, C, hat⟩ := h
  cases step_effect hstep with
  | histput path dt tent _ hput _ _ =>
    obtain ⟨P', hat'⟩ := hat.histput hput
    exact ⟨P', _, hat'⟩
  | histremove _ hrem _ =>
    obtain ⟨_, _, hr⟩ := histremove_iff.mp hrem
    rw [hr]
    exact ⟨P, C + 1, hat.removed⟩
  | getReply _ _ _ _ _ _ _ hr _ =>
    rw [hr]
    exact ⟨P, C, hat⟩
  | quiet _ _ _ hsame _ => exact ⟨P, C, hsame.at hat⟩

/-- The positions of the ring exist in every reachable state. -/
theorem exec_at {nh : Int} {sn : Nat} {ls : List Label} {s : State}
    (h : exec step (init nh sn) ls = some s) : ∃ P C, At s.ring P C :=
  exec_invariant (I := fun s => ∃ P C, At s.ring P C) at_step ⟨0, 0, at_histinit nh⟩ h

end JitDt.Lwatcher
