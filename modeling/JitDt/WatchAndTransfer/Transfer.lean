import JitDt.Inotifylib.Prevpath
import JitDt.Kwatcher.Mkhist
import JitDt.Translib.Sftp

/-!
# The files of watch_and_transfer

`mynotify` calls `transfer` for a file and keeps its path if 1 is returned, so that a second event
for the file is passed over. `transfer` returns 1 for every file it has handed to the transfer
function, and does not look at what that one returns. The regular expressions of the configuration
and the outcome of the system calls are parameters.
-/

namespace JitDt.WatchAndTransfer

set_option autoImplicit false

open Machine
open Inotifylib
open Translib (Proc Reply Calls Files)

/-! ## The transfer functions -/

/-- What `trans_type` finds in the URL. A directory for `lock:` is always given. -/
inductive Method where
  | scp
  | sftp (rpath : Option Path)
  | lock (rpath : Path)

structure Config where
  topdir : Path
  startdir : Path
  sdirflag : Bool
  dryflag : Int
  keep_proc : Bool
  lntfyfile : Path
  rntfydir : Path
  method : Method
  /-- The threshold of a file, if its name is one of ours. -/
  regex_match : Path → Option CStr

/-- What a file meets in `transfer`: its size, or what stands on the stack if there is no such
file, and the results of the calls of the transfer functions. -/
structure Answers where
  st_size : Int64
  system : Int
  fork : Option Bool
  put : Reply
  notify : Reply
  last : Reply
  calls : Calls
  files : Files

/-- The number that a transfer function returns; a measured time is left open. -/
inductive Double where
  | sec
  | minusOne
  | zero
deriving DecidableEq

def scp_put (cc : Int) : Double := if cc ≠ 0 then .minusOne else .sec

def Config.sftpCall (cfg : Config) (a : Answers) (rpath : Option Path) (fname : Path) :
    Translib.Call where
  rpath := rpath
  fname := fname
  lntfy := some cfg.lntfyfile
  rntfy := cfg.rntfydir
  fork := a.fork
  system := a.system
  put := a.put
  notify := a.notify
  last := a.last

/-- The entry of `ttable`; `none` if the program exits. -/
def transfunc (cfg : Config) (a : Answers) (p : Proc) (fname : Path) : Option (Proc × Double) :=
  match cfg.method with
  | .scp => some (p, scp_put a.system)
  | .sftp rpath => (Translib.sftp_put cfg.keep_proc p (cfg.sftpCall a rpath fname)).map fun r =>
      (r.1, if r.2.done then .sec else .zero)
  | .lock rpath => (Translib.locked_move a.calls rpath fname a.files).bind fun m =>
      if m.exited then none else some (p, .zero)

/-- The number reports a success. -/
def Succeeded : Method → Double → Prop
  | .scp, r => r ≠ .minusOne
  | .sftp _, r => r ≠ .zero
  | .lock _, _ => True

/-! ## The function -/

/-- What becomes of a file: a dry run only logs it. -/
inductive Fate where
  | skipped
  | logged
  | sent (r : Double)
deriving DecidableEq

def Delivered (m : Method) : Fate → Prop
  | .skipped => False
  | .logged => False
  | .sent r => Succeeded m r

structure Transferred where
  ret : Int
  fate : Fate
  proc : Proc

def transfer (cfg : Config) (a : Answers) (p : Proc) (fname : Path) : Option Transferred :=
  match cfg.regex_match fname with
  | none => some ⟨0, .skipped, p⟩
  | some thr =>
    if 0 < Kwatcher.atoll thr ∧ a.st_size < Kwatcher.atoll thr then some ⟨0, .skipped, p⟩
    else if cfg.dryflag ≠ 0 then some ⟨1, .logged, p⟩
    else (transfunc cfg a p fname).map fun r => ⟨1, .sent r.2, r.1⟩

/-! ## Runs -/

/-- The static data of both files, and the last file that was handed to `transfer`. -/
structure State where
  notify : Notify
  proc : Proc
  last : Option (Path × Fate)

/-- An action of the event loop, and what a file meets that is handed to `transfer` in it. -/
structure Label where
  action : Action
  answers : Answers

def Config.notify (cfg : Config) : Inotifylib.Config :=
  ⟨fformat cfg.topdir, some cfg.startdir, cfg.sdirflag⟩

/-- `transfer` is the function that is called. -/
def calling (cfg : Config) (s : State) (a : Answers) (w : World) : World :=
  { w with func := fun fname => (transfer cfg a s.proc fname).elim 0 Transferred.ret }

def start (cfg : Config) (w : World) : Option State :=
  (Inotifylib.start cfg.notify w).map fun n => ⟨n, ⟨false, false, 0⟩, none⟩

/-- The file that is handed to `transfer`. -/
def dispatched (cfg : Config) (s : State) (l : Label) : Option Path :=
  match l.action with
  | .gone _ => none
  | .event e w _ => (handle cfg.sdirflag (calling cfg s l.answers w) e s.notify).call

def loop (cfg : Config) (s : State) (l : Label) : Option Notify :=
  match l.action with
  | .gone d => Inotifylib.step cfg.notify s.notify (.gone d)
  | .event e w w' =>
    Inotifylib.step cfg.notify s.notify (.event e (calling cfg s l.answers w) w')

/-- `none` also if the transfer function ends the program. -/
def step (cfg : Config) (s : State) (l : Label) : Option State :=
  (loop cfg s l).bind fun n =>
    match dispatched cfg s l with
    | none => some { s with notify := n }
    | some fname => (transfer cfg l.answers s.proc fname).map fun r =>
        ⟨n, r.proc, some (fname, r.fate)⟩

/-- The event is for a file of the instance. -/
def FileEvent (s : State) (e : Event) (w : World) : Prop :=
  (0 < e.wd ∧ e.wd < s.notify.ino.next) ∧ Eligible w e s.notify

/-- A file is passed over as the same one only if it was handed over last and delivered, and one
that was not delivered is handed over again. -/
def SkipsDelivered (cfg : Config) (s : State) (l : Label) : Prop :=
  match l.action with
  | .gone _ => True
  | .event e w _ => FileEvent s e w →
    (s.notify.prevpath = s.notify.avpath e →
      ∃ r, s.last = some (s.notify.avpath e, r) ∧ Delivered cfg.method r) ∧
    ∀ r, s.last = some (s.notify.avpath e, r) → ¬ Delivered cfg.method r →
      dispatched cfg s l = some (s.notify.avpath e)

/-- No event comes for the file that was handed over last, unless it was delivered or skipped. -/
def NotAgain (cfg : Config) (s : State) (l : Label) : Prop :=
  match l.action with
  | .gone _ => True
  | .event e w _ => FileEvent s e w → ∀ r, s.last = some (s.notify.avpath e, r) →
      r = .skipped ∨ Delivered cfg.method r

/-! ## What is passed over -/

section Step
variable {cfg : Config} {s t : State} {l : Label} {e : Event} {w w' : World} {a : Answers}

/-- The path that is kept is that of the last file, unless it was skipped. -/
structure Inv (s : State) : Prop where
  rows : Rows s.notify
  prev : s.notify.prevpath = s.last.elim [] fun x => if x.2 = .skipped then [] else x.1

theorem dispatched_event (h : l.action = .event e w w') : dispatched cfg s l =
    if Due w e s.notify then some (s.notify.avpath e) else none := by
  unfold dispatched
  rw [h]
  exact call_eq cfg.sdirflag (calling cfg s l.answers w) e s.notify

theorem transfer_ret {p : Proc} {fname : Path} {r : Transferred}
    (h : transfer cfg a p fname = some r) : r.ret = if r.fate = .skipped then 0 else 1 := by
  unfold transfer at h
  split at h
  · rw [← Option.some.inj h]
    rfl
  · split at h
    · rw [← Option.some.inj h]
      rfl
    · split at h
      · rw [← Option.some.inj h]
        rfl
      · obtain ⟨x, -, rfl⟩ := Option.map_eq_some_iff.mp h
        rfl

/-- What the event loop does around `transfer`. -/
theorem loop_event {n : Notify} (hrows : Rows s.notify) (h : l.action = .event e w w')
    (hn : loop cfg s l = some n) : Rows n ∧ n.prevpath =
      if Due w e s.notify then
        if (transfer cfg l.answers s.proc (s.notify.avpath e)).elim 0 Transferred.ret = 1 then
          s.notify.avpath e
        else []
      else s.notify.prevpath := by
  unfold loop at hn
  rw [h] at hn
  have hhandle := @handle_rows (calling cfg s l.answers w) e s.notify cfg.sdirflag hrows
  obtain ⟨-, ⟨call, hu⟩ | ⟨u, avpath, hu, hr⟩⟩ := step_cases hn
  · change handle cfg.sdirflag _ e s.notify = _ at hu
    rw [hu] at hhandle
    exact hhandle
  · change handle cfg.sdirflag _ e s.notify = _ at hu
    rw [hu] at hhandle
    obtain ⟨hrows', hprev⟩ := restart_rows (fformat_ne_nil cfg.topdir) hr
    refine ⟨hrows', hprev.trans hhandle.2⟩

theorem Inv.step (h : Inv s) (ht : step cfg s l = some t) : Inv t := by
  obtain ⟨n, hn, ht⟩ := Option.bind_eq_some_iff.mp ht
  cases hact : l.action with
  | gone d =>
    have hnone : dispatched cfg s l = none := by
      unfold dispatched
      rw [hact]
    unfold loop at hn
    rw [hact] at hn
    simp only [hnone] at ht
    cases ht
    cases hn
    exact ⟨h.rows, h.prev⟩
  | event e w w' =>
    obtain ⟨hrows, hprev⟩ := loop_event h.rows hact hn
    rw [dispatched_event hact] at ht
    by_cases hdue : Due w e s.notify
    · rw [if_pos hdue] at ht hprev
      obtain ⟨r, hr, rfl⟩ := Option.map_eq_some_iff.mp ht
      refine ⟨hrows, hprev.trans ?_⟩
      rw [hr, Option.elim_some, transfer_ret hr, Option.elim_some]
      by_cases hskip : r.fate = .skipped
      · rw [if_pos hskip, if_pos hskip]
        rfl
      · rw [if_neg hskip, if_neg hskip]
        rfl
    · rw [if_neg hdue] at ht hprev
      cases ht
      exact ⟨hrows, hprev.trans h.prev⟩

theorem skipsDelivered_iff (h : Inv s) : SkipsDelivered cfg s l ↔ NotAgain cfg s l := by
  cases hact : l.action with
  | gone d =>
    unfold SkipsDelivered NotAgain
    rw [hact]
  | event e w w' =>
    have hcall := @dispatched_event cfg s l e w w' hact
    unfold SkipsDelivered NotAgain
    simp only [hact]
    refine forall_congr' fun hfile => ?_
    have hne := avpath_ne_nil h.rows hfile.1
    constructor
    · rintro ⟨hsame, -⟩ r hlast
      by_cases hskip : r = .skipped
      · exact .inl hskip
      · have hprev := h.prev
        rw [hlast, Option.elim_some, if_neg hskip] at hprev
        obtain ⟨r', hlast', hdel⟩ := hsame hprev
        rw [hlast] at hlast'
        cases hlast'
        exact .inr hdel
    · intro hagain
      constructor
      · intro hsame
        have hprev := h.prev
        rw [hsame] at hprev
        cases hlast : s.last with
        | none =>
          rw [hlast] at hprev
          exact absurd hprev hne
        | some x =>
          rw [hlast, Option.elim_some] at hprev
          split at hprev
          · exact absurd hprev hne
          · rename_i hskip
            rw [hprev] at hagain ⊢
            exact ⟨x.2, rfl, (hagain x.2 hlast).resolve_left hskip⟩
      · intro r hlast hnot
        have hskip := (hagain r hlast).resolve_right hnot
        have hprev := h.prev
        rw [hlast, Option.elim_some, if_pos hskip] at hprev
        rw [hcall, if_pos]
        apply due_iff.mpr
        refine ⟨hfile.2, ?_⟩
        rw [hprev]
        exact hne

end Step

theorem start_inv {cfg : Config} {w : World} {s : State} (h : start cfg w = some s) : Inv s := by
  obtain ⟨n, hn, rfl⟩ := Option.map_eq_some_iff.mp h
  obtain ⟨hrows, hprev⟩ := restart_rows (fformat_ne_nil cfg.topdir) hn
  exact ⟨hrows, hprev⟩

/-- In every run only delivered files are passed over, and the others dispatched again, if and only
if no event comes for a file that was handed over last and not delivered. -/
theorem delivered_skipped_iff {cfg : Config} {w : World} {s : State} (h : start cfg w = some s)
    (ls : List Label) :
    Along (step cfg) (SkipsDelivered cfg) s ls ↔ Along (step cfg) (NotAgain cfg) s ls :=
  along_iff_along (fun hI _ ht => hI.step ht) (fun hI => skipsDelivered_iff hI) (start_inv h)

/-- Every file below `/` goes by scp. -/
def scpAll : Config where
  topdir := [47]
  startdir := []
  sdirflag := false
  dryflag := 0
  keep_proc := false
  lntfyfile := [108]
  rntfydir := [114, 47]
  method := .scp
  regex_match := fun _ => some .empty

def files : World := ⟨fun _ => some false, fun _ => none, fun _ => some 0, fun _ => 0⟩

/-- A file `f` is closed, and `system` returns `cc`. -/
def closed (cc : Int) : Label where
  action := .event ⟨1, inCloseWrite, [102]⟩ files files
  answers := ⟨0, cc, none, .read 0, .read 0, .read 0,
    ⟨none, none, none, fun _ => none, fun _ => none⟩, fun _ => []⟩

/-- The second event for a file that was delivered is passed over. -/
theorem delivered_skipped_iff_twice : ∃ s t u, start scpAll files = some s ∧
    step scpAll s (closed 0) = some t ∧ t.last = some ([47, 102], .sent .sec) ∧
    dispatched scpAll t (closed 0) = none ∧ step scpAll t (closed 0) = some u ∧
    Along (step scpAll) (SkipsDelivered scpAll) s [closed 0, closed 0] := by
  obtain ⟨s, t, u, hs, ht, hu, hfirst, hlast, hcall⟩ : ∃ s t u, start scpAll files = some s ∧
      step scpAll s (closed 0) = some t ∧ step scpAll t (closed 0) = some u ∧ s.last = none ∧
      t.last = some ([47, 102], .sent .sec) ∧ dispatched scpAll t (closed 0) = none :=
    ⟨_, _, _, rfl, rfl, rfl, rfl, rfl, rfl⟩
  refine ⟨s, t, u, hs, ht, hlast, hcall, hu,
    (delivered_skipped_iff hs [closed 0, closed 0]).mpr ?_⟩
  refine (along_cons_iff ht).mpr ⟨fun _ r hr => ?_, (along_cons_iff hu).mpr
    ⟨fun _ r hr => ?_, along_nil⟩⟩
  · rw [hfirst] at hr
    cases hr
  · have hsent : r = .sent .sec := congrArg Prod.snd (Option.some.inj (hr.symm.trans hlast))
    rw [hsent]
    exact .inr (show Double.sec ≠ .minusOne by decide)

/-- `scp` fails, and the second event for the file is passed over. -/
theorem undelivered_skipped : ∃ s t, start scpAll files = some s ∧
    step scpAll s (closed 256) = some t ∧ t.last = some ([47, 102], .sent .minusOne) ∧
    FileEvent t ⟨1, inCloseWrite, [102]⟩ files ∧ dispatched scpAll t (closed 256) = none ∧
    ¬ Along (step scpAll) (SkipsDelivered scpAll) s [closed 256, closed 256] := by
  obtain ⟨s, t, hs, ht, hfile, hprev, hlast, hcall⟩ : ∃ s t, start scpAll files = some s ∧
      step scpAll s (closed 256) = some t ∧ FileEvent t ⟨1, inCloseWrite, [102]⟩ files ∧
      t.notify.prevpath = t.notify.avpath ⟨1, inCloseWrite, [102]⟩ ∧
      t.last = some ([47, 102], .sent .minusOne) ∧ dispatched scpAll t (closed 256) = none := by
    refine ⟨_, _, rfl, rfl, ⟨⟨?_, ?_⟩, ?_, ?_, ?_, ?_⟩, ?_, ?_, ?_⟩
    · decide
    · decide
    · decide
    · rfl
    · decide
    · decide
    · rfl
    · rfl
    · rfl
  refine ⟨s, t, hs, ht, hlast, hfile, hcall, fun hall => ?_⟩
  have hsecond := ((along_cons_iff ht).mp hall).2.1
  obtain ⟨r, hr, hdel⟩ := (hsecond hfile).1 hprev
  have hfailed : r = .sent .minusOne := congrArg Prod.snd (Option.some.inj (hr.symm.trans hlast))
  rw [hfailed] at hdel
  exact hdel rfl

end JitDt.WatchAndTransfer
