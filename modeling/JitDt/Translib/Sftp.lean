import JitDt.Lib.Machine
import JitDt.Translib.LockedMove

/-!
# The sftp child of translib.c

`sftp_put` talks to a child over two pipes and keeps it for the next call. `put_cmd` returns what
`read` does, and only a negative result is taken for the end of the child: the zero bytes that
`read` finds when the child has closed its output pass for a reply. How the child answers each
command is a parameter; `waitpid` returns, and a write to the pipe does not kill the program.
-/

namespace JitDt.Translib

set_option autoImplicit false

open Machine
open PathName (basePart)

def fVersionM : Nat := 10

/-! ## Commands -/

/-- How a command ends: a wait times out, before the command is written or after it, or `read`
returns a number of bytes or -1. -/
inductive Reply where
  | writeTimeout
  | replyTimeout
  | read (n : Int)
deriving DecidableEq

def put_cmd : Reply → Int
  | .writeTimeout => -1
  | .replyTimeout => -1
  | .read n => n

inductive Cmd where
  | put (fname : Path) (dest : Option Path)
  | notify (lntfy : Path) (dest : Path)
  | pwd
  | quit
deriving DecidableEq

/-- Some bytes of a reply have arrived. -/
def Answered (x : Cmd × Reply) : Prop := 0 < put_cmd x.2

instance (x : Cmd × Reply) : Decidable (Answered x) := inferInstanceAs (Decidable (_ < _))

def Cmd.isNotify : Cmd → Bool
  | .notify _ _ => true
  | _ => false

/-! ## The function -/

/-- The static variables, `wfp` only as far as it is a null pointer or not, and `*vrsnp`. -/
structure Proc where
  isprocalive : Bool
  wfp : Bool
  vrsnp : Nat
deriving DecidableEq

/-- The arguments of a call, and what it meets: whether `fdopen` succeeds after a `fork`, if that
one does, what `system` returns, and the replies to the commands in their order. -/
structure Call where
  rpath : Option Path
  fname : Path
  lntfy : Option Path
  rntfy : Path
  fork : Option Bool
  system : Int
  put : Reply
  notify : Reply
  last : Reply

/-- Whether the time taken is returned, not 0.0, and the commands with their replies. -/
structure Put where
  done : Bool
  trace : List (Cmd × Reply)

def decimal (n : Nat) : List UInt8 := (Nat.toDigits 10 n).map fun c => UInt8.ofNat c.toNat

namespace Call

def putCmd (c : Call) : Cmd := .put c.fname (c.rpath.map fun rpath => destname rpath c.fname)

def notifyCmd (c : Call) (lntfy : Path) (vrsnp : Nat) : Cmd :=
  .notify lntfy (c.rntfy ++ decimal vrsnp)

/-- What is written to the local notification file: the name of the remote file. -/
def notification (c : Call) : Path :=
  match c.rpath with
  | some rpath => basePart (destname rpath c.fname)
  | none => basePart ([126, 47] ++ c.fname)

end Call

def die (p : Proc) (trace : List (Cmd × Reply)) : Proc × Put :=
  ({ p with isprocalive := false }, ⟨false, trace⟩)

/-- The command behind the transfer: `pwd`, or `quit` for a child that is not kept. -/
def lastCmd (keepproc : Bool) (p : Proc) (c : Call) (trace : List (Cmd × Reply)) : Proc × Put :=
  if keepproc then
    if put_cmd c.last < 0 then die p (trace ++ [(.pwd, c.last)])
    else (p, ⟨true, trace ++ [(.pwd, c.last)]⟩)
  else (p, ⟨true, trace ++ [(.quit, c.last)]⟩)

/-- The call when there is a child. -/
def talk (keepproc : Bool) (p : Proc) (c : Call) : Proc × Put :=
  if p.wfp = false then die p []
  else
    let trace := [(c.putCmd, c.put)]
    if put_cmd c.put < 0 then die p trace
    else
      match c.lntfy with
      | none => lastCmd keepproc p c trace
      | some lntfy =>
        if c.system < 0 then (p, ⟨false, trace⟩)
        else
          let trace' := trace ++ [(c.notifyCmd lntfy p.vrsnp, c.notify)]
          if put_cmd c.notify < 0 then die p trace'
          else lastCmd keepproc { p with vrsnp := (p.vrsnp + 1) % fVersionM } c trace'

/-- The process after a child was started if there is none; `none` if the program exits. -/
def child (keepproc : Bool) (p : Proc) (c : Call) : Option Proc :=
  if p.isprocalive then some p
  else c.fork.map fun wfp => { p with isprocalive := keepproc, wfp := wfp }

def sftp_put (keepproc : Bool) (p : Proc) (c : Call) : Option (Proc × Put) :=
  (child keepproc p c).map fun p => talk keepproc p c

/-! ## Noticing the end of the child -/

/-- When a command gets no reply, nothing more is written and the child is given up; the version
advances only with an answered notification. -/
structure NoticesEnd (p p' : Proc) (r : Put) : Prop where
  silent : r.trace.Pairwise fun x y => ¬ Answered x → y.2 = .writeTimeout
  dead : (∃ x ∈ r.trace, ¬ Answered x) → p'.isprocalive = false
  version : p'.vrsnp ≠ p.vrsnp → ∃ x ∈ r.trace, x.1.isNotify = true ∧ Answered x

def Notices (p : Proc) (c : Call) : Prop :=
  ∀ r, sftp_put true p c = some r → NoticesEnd p r.1 r.2

/-- The reply to the command behind the `put` of the file, unless `system` fails first. -/
def Call.next (c : Call) : Option Reply :=
  match c.lntfy with
  | none => some c.last
  | some _ => if c.system < 0 then none else some c.notify

/-- No command that is performed ends with `read` returning 0, but for the `put` of the file when
the wait to write the next command times out. -/
def NoEof (p : Proc) (c : Call) : Prop :=
  (child true p c).any (·.wfp) = true →
    (put_cmd c.put = 0 → c.next = some .writeTimeout) ∧
    (0 < put_cmd c.put → ∀ r ∈ c.next, put_cmd r ≠ 0 ∧
      (c.lntfy.isSome → 0 < put_cmd r → put_cmd c.last ≠ 0))

instance (p : Proc) (c : Call) : Decidable (NoEof p c) :=
  inferInstanceAs (Decidable (_ → _ ∧ (_ → ∀ r ∈ c.next, _)))

section Outcomes
variable {p q : Proc} {c : Call} {trace : List (Cmd × Reply)} {x : Cmd × Reply}

/-- Commands that were all answered, and a version that only one of them can have moved. -/
structure AllAnswered (p q : Proc) (trace : List (Cmd × Reply)) : Prop where
  answered : ∀ x ∈ trace, Answered x
  version : q.vrsnp ≠ p.vrsnp → ∃ x ∈ trace, x.1.isNotify = true

theorem AllAnswered.silent (h : AllAnswered p q trace) :
    (trace ++ [x]).Pairwise fun x y => ¬ Answered x → y.2 = .writeTimeout := by
  rw [List.pairwise_append]
  refine ⟨?_, List.pairwise_singleton _ _, fun y hy _ _ hno => absurd (h.answered y hy) hno⟩
  exact List.pairwise_of_forall_mem_list fun y hy _ _ hno => absurd (h.answered y hy) hno

theorem AllAnswered.notified (h : AllAnswered p q trace) (hv : q.vrsnp ≠ p.vrsnp) :
    ∃ y ∈ trace ++ [x], y.1.isNotify = true ∧ Answered y := by
  obtain ⟨y, hy, hnotify⟩ := h.version hv
  exact ⟨y, List.mem_append_left _ hy, hnotify, h.answered y hy⟩

theorem AllAnswered.die (h : AllAnswered p q trace) :
    NoticesEnd p (die q (trace ++ [x])).1 (die q (trace ++ [x])).2 :=
  ⟨h.silent, fun _ => rfl, h.notified⟩

theorem AllAnswered.snoc (h : AllAnswered p q trace) (hx : Answered x) :
    AllAnswered p q (trace ++ [x]) := by
  refine ⟨?_, fun hv => ?_⟩
  · intro y hy
    rcases List.mem_append.mp hy with hy | hy
    · exact h.answered y hy
    · rw [List.mem_singleton.mp hy]
      exact hx
  · obtain ⟨y, hy, hnotify⟩ := h.version hv
    exact ⟨y, List.mem_append_left _ hy, hnotify⟩

/-- Behind answered commands, `pwd` alone decides: an end of file leaves the child alive. -/
theorem AllAnswered.lastCmd_iff (h : AllAnswered p q trace) (hq : q.isprocalive = true) :
    NoticesEnd p (lastCmd true q c trace).1 (lastCmd true q c trace).2 ↔ put_cmd c.last ≠ 0 := by
  unfold lastCmd
  rw [if_pos rfl]
  split
  · rename_i hneg
    exact iff_of_true h.die (by omega)
  · rename_i hpos
    change NoticesEnd p q ⟨true, trace ++ [(.pwd, c.last)]⟩ ↔ _
    constructor
    · intro hend h0
      have hdead := hend.dead ⟨(.pwd, c.last), by simp, by simp [Answered, h0]⟩
      rw [hq] at hdead
      cases hdead
    · intro h0
      have hans : Answered (.pwd, c.last) := by
        change 0 < put_cmd c.last
        omega
      refine ⟨h.silent, ?_, h.notified⟩
      rintro ⟨y, hy, hno⟩
      exact absurd ((h.snoc hans).answered y hy) hno

theorem lastCmd_trace : (lastCmd true q c trace).2.trace = trace ++ [(.pwd, c.last)] := by
  unfold lastCmd
  rw [if_pos rfl]
  split <;> rfl

theorem lastCmd_vrsnp : (lastCmd true q c trace).1.vrsnp = q.vrsnp := by
  unfold lastCmd
  rw [if_pos rfl]
  split <;> rfl

theorem not_answered (h0 : put_cmd x.2 = 0) : ¬ Answered x := by
  unfold Answered
  omega

theorem put_cmd_neg_of_writeTimeout {r : Reply} (h : r = .writeTimeout) : put_cmd r < 0 := by
  rw [h]
  decide

/-- An end of file is no reason to give the child up. -/
theorem not_noticesEnd {r : Put} (hq : q.isprocalive = true) (hx : x ∈ r.trace)
    (h0 : put_cmd x.2 = 0) : ¬ NoticesEnd p q r := by
  intro hend
  have hdead := hend.dead ⟨x, hx, not_answered h0⟩
  rw [hq] at hdead
  cases hdead

theorem noticesEnd_eof_die {y : Cmd × Reply} (hv : q.vrsnp = p.vrsnp) (h0 : put_cmd x.2 = 0) :
    NoticesEnd p (die q [x, y]).1 (die q [x, y]).2 ↔ y.2 = .writeTimeout := by
  constructor
  · intro hend
    exact (List.pairwise_pair.mp hend.silent) (not_answered h0)
  · intro hy
    exact ⟨List.pairwise_pair.mpr fun _ => hy, fun _ => rfl, fun hne => absurd hv hne⟩

theorem lastCmd_eof_iff (hq : q.isprocalive = true) (hv : q.vrsnp = p.vrsnp)
    (h0 : put_cmd x.2 = 0) :
    NoticesEnd p (lastCmd true q c [x]).1 (lastCmd true q c [x]).2 ↔ c.last = .writeTimeout := by
  unfold lastCmd
  rw [if_pos rfl]
  split
  · exact noticesEnd_eof_die hv h0
  · rename_i hlast
    refine iff_of_false (not_noticesEnd hq List.mem_cons_self h0) ?_
    intro htimeout
    exact hlast (put_cmd_neg_of_writeTimeout htimeout)

/-- The call behind the `put` of the file, when that one was not refused. -/
theorem talk_put (hwfp : q.wfp = true) (hput : ¬ put_cmd c.put < 0) : talk true q c =
    c.lntfy.elim (lastCmd true q c [(c.putCmd, c.put)]) fun lntfy =>
      if c.system < 0 then (q, ⟨false, [(c.putCmd, c.put)]⟩)
      else if put_cmd c.notify < 0 then
        die q [(c.putCmd, c.put), (c.notifyCmd lntfy q.vrsnp, c.notify)]
      else lastCmd true { q with vrsnp := (q.vrsnp + 1) % fVersionM } c
        [(c.putCmd, c.put), (c.notifyCmd lntfy q.vrsnp, c.notify)] := by
  unfold talk
  rw [if_neg (by simp [hwfp] : ¬ q.wfp = false)]
  simp only
  rw [if_neg hput]
  cases c.lntfy <;> rfl

theorem talk_dead (hwfp : q.wfp = true) (hv : q.vrsnp = p.vrsnp) (hneg : put_cmd c.put < 0) :
    NoticesEnd p (talk true q c).1 (talk true q c).2 := by
  have hnone : AllAnswered p q [] := ⟨by simp, fun hne => absurd hv hne⟩
  unfold talk
  rw [if_neg (by simp [hwfp] : ¬ q.wfp = false)]
  simp only
  rw [if_pos hneg]
  exact hnone.die

theorem talk_eof_iff (hq : q.isprocalive = true) (hwfp : q.wfp = true)
    (hv : q.vrsnp = p.vrsnp) (h0 : put_cmd c.put = 0) :
    NoticesEnd p (talk true q c).1 (talk true q c).2 ↔ c.next = some .writeTimeout := by
  unfold Call.next
  rw [talk_put hwfp (by omega)]
  cases c.lntfy with
  | none =>
    rw [Option.some_inj]
    exact lastCmd_eof_iff hq hv h0
  | some lntfy =>
    rw [Option.elim_some]
    simp only
    by_cases hsys : c.system < 0
    · rw [if_pos hsys, if_pos hsys]
      exact iff_of_false (not_noticesEnd hq List.mem_cons_self h0) (by simp)
    rw [if_neg hsys, if_neg hsys, Option.some_inj]
    by_cases hnotify : put_cmd c.notify < 0
    · rw [if_pos hnotify]
      exact noticesEnd_eof_die hv h0
    · rw [if_neg hnotify]
      refine iff_of_false ?_ fun htimeout => hnotify (put_cmd_neg_of_writeTimeout htimeout)
      intro hend
      have hsilent := hend.silent
      rw [lastCmd_trace] at hsilent
      have hwritten := (List.pairwise_cons.mp hsilent).1 (c.notifyCmd lntfy q.vrsnp, c.notify)
        (by simp) (not_answered h0)
      exact hnotify (put_cmd_neg_of_writeTimeout hwritten)

/-- The version moves as soon as the reply to the notification is not negative. -/
theorem notified_iff (lntfy : Path) (hq : q.isprocalive = true) (hv : q.vrsnp = p.vrsnp)
    (hput : 0 < put_cmd c.put) (hnotify : ¬ put_cmd c.notify < 0) :
    let q' := { q with vrsnp := (q.vrsnp + 1) % fVersionM }
    let trace := [(c.putCmd, c.put), (c.notifyCmd lntfy q.vrsnp, c.notify)]
    NoticesEnd p (lastCmd true q' c trace).1 (lastCmd true q' c trace).2 ↔
      put_cmd c.notify ≠ 0 ∧ put_cmd c.last ≠ 0 := by
  intro q' trace
  by_cases h0 : put_cmd c.notify = 0
  · refine iff_of_false ?_ (by simp [h0])
    intro hend
    have hmoved : (lastCmd true q' c trace).1.vrsnp ≠ p.vrsnp := by
      rw [lastCmd_vrsnp, ← hv]
      change (q.vrsnp + 1) % 10 ≠ q.vrsnp
      omega
    obtain ⟨y, hy, hisnotify, hans⟩ := hend.version hmoved
    rw [lastCmd_trace] at hy
    simp only [trace, List.cons_append, List.nil_append, List.mem_cons, List.not_mem_nil,
      or_false] at hy
    rcases hy with rfl | rfl | rfl
    · cases hisnotify
    · exact absurd hans (not_answered h0)
    · cases hisnotify
  · have hall : AllAnswered p q' trace := by
      refine ⟨?_, fun _ => ⟨(c.notifyCmd lntfy q.vrsnp, c.notify), by simp [trace], rfl⟩⟩
      intro y hy
      simp only [trace, List.mem_cons, List.not_mem_nil, or_false] at hy
      rcases hy with rfl | rfl
      · exact hput
      · change 0 < put_cmd c.notify
        omega
    rw [hall.lastCmd_iff hq]
    simp [h0]

theorem talk_answered_iff (hq : q.isprocalive = true) (hwfp : q.wfp = true)
    (hv : q.vrsnp = p.vrsnp) (hput : 0 < put_cmd c.put) :
    NoticesEnd p (talk true q c).1 (talk true q c).2 ↔
      ∀ r ∈ c.next, put_cmd r ≠ 0 ∧
        (c.lntfy.isSome → 0 < put_cmd r → put_cmd c.last ≠ 0) := by
  have hall : AllAnswered p q [(c.putCmd, c.put)] := by
    refine ⟨fun y hy => ?_, fun hne => absurd hv hne⟩
    rw [List.mem_singleton.mp hy]
    exact hput
  unfold Call.next
  rw [talk_put hwfp (by omega)]
  cases c.lntfy with
  | none =>
    rw [Option.elim_none, hall.lastCmd_iff hq]
    simp
  | some lntfy =>
    rw [Option.elim_some]
    simp only
    by_cases hsys : c.system < 0
    · rw [if_pos hsys, if_pos hsys]
      refine iff_of_true ⟨List.pairwise_singleton _ _, ?_, fun hne => absurd hv hne⟩ (by simp)
      rintro ⟨y, hy, hno⟩
      exact absurd (hall.answered y hy) hno
    rw [if_neg hsys, if_neg hsys]
    by_cases hnotify : put_cmd c.notify < 0
    · rw [if_pos hnotify]
      refine iff_of_true hall.die ?_
      intro r hr
      rw [← Option.some.inj hr]
      exact ⟨by omega, fun _ hpos => by omega⟩
    · rw [if_neg hnotify]
      refine (notified_iff lntfy hq hv hput hnotify).trans ?_
      constructor
      · rintro ⟨hne, hlast⟩ r hr
        rw [← Option.some.inj hr]
        exact ⟨hne, fun _ _ => hlast⟩
      · intro h
        have hr := h c.notify rfl
        exact ⟨hr.1, hr.2 rfl (by omega)⟩

theorem talk_notices_iff (hq : q.isprocalive = true) (hwfp : q.wfp = true)
    (hv : q.vrsnp = p.vrsnp) :
    NoticesEnd p (talk true q c).1 (talk true q c).2 ↔
      (put_cmd c.put = 0 → c.next = some .writeTimeout) ∧
      (0 < put_cmd c.put → ∀ r ∈ c.next, put_cmd r ≠ 0 ∧
        (c.lntfy.isSome → 0 < put_cmd r → put_cmd c.last ≠ 0)) := by
  rcases Int.lt_trichotomy (put_cmd c.put) 0 with hneg | h0 | hpos
  · exact iff_of_true (talk_dead hwfp hv hneg) ⟨by omega, by omega⟩
  · rw [talk_eof_iff hq hwfp hv h0]
    simp [h0]
  · rw [talk_answered_iff hq hwfp hv hpos]
    simp [hpos, hpos.ne']

end Outcomes

/-! ## Sequences of calls -/

theorem child_alive {p q : Proc} {c : Call} (h : child true p c = some q) :
    q.isprocalive = true ∧ q.vrsnp = p.vrsnp := by
  unfold child at h
  split at h
  · rename_i halive
    rw [← Option.some.inj h]
    exact ⟨halive, rfl⟩
  · obtain ⟨wfp, -, rfl⟩ := Option.map_eq_some_iff.mp h
    exact ⟨rfl, rfl⟩

/-- Without a child the next call starts one. -/
theorem child_of_dead {p : Proc} {c : Call} (h : p.isprocalive = false) :
    child true p c = c.fork.map fun wfp => { p with isprocalive := true, wfp := wfp } := by
  unfold child
  rw [h]
  rfl

theorem notices_iff (p : Proc) (c : Call) : Notices p c ↔ NoEof p c := by
  unfold Notices NoEof sftp_put
  cases hchild : child true p c with
  | none => simp
  | some q =>
    obtain ⟨hq, hv⟩ := child_alive hchild
    simp only [Option.map_some, Option.some_inj, forall_eq', Option.any_some]
    by_cases hwfp : q.wfp = true
    · rw [talk_notices_iff hq hwfp hv]
      simp [hwfp]
    · refine iff_of_true ?_ fun h => absurd h hwfp
      unfold talk
      rw [if_pos (by simpa using hwfp)]
      exact ⟨List.Pairwise.nil, fun _ => rfl, fun hne => absurd hv hne⟩

/-- One call in keep-process mode. -/
def step (p : Proc) (c : Call) : Option Proc := (sftp_put true p c).map Prod.fst

/-- A dead child is given up and a new one started; the next call shows it. -/
def NoticesDead (p : Proc) (c : Call) : Prop :=
  Notices p c ∧ ∀ r, sftp_put true p c = some r → (∃ x ∈ r.2.trace, ¬ Answered x) →
    ∀ c', child true r.1 c' = c'.fork.map fun wfp => { r.1 with isprocalive := true, wfp := wfp }

theorem noticesDead_iff (p : Proc) (c : Call) : NoticesDead p c ↔ NoEof p c := by
  unfold NoticesDead
  rw [notices_iff, and_iff_left_iff_imp, ← notices_iff]
  intro h r hr hx c'
  exact child_of_dead ((h r hr).dead hx)

/-- In keep-process mode the end of the child is noticed in every call of a sequence if and only
if no command of it runs into the end of file. -/
theorem end_noticed_iff (p : Proc) (calls : List Call) :
    Along step NoticesDead p calls ↔ Along step NoEof p calls :=
  along_iff_along (I := fun _ => True) (fun _ _ _ => trivial) (fun _ => noticesDead_iff _ _) trivial

/-- The child is gone: `put`, the notification and `pwd` all read 0 bytes; the version advances and
the child passes for alive. -/
def goneChild : Call where
  rpath := none
  fname := [102]
  lntfy := some [108]
  rntfy := [110]
  fork := some true
  system := 0
  put := .read 0
  notify := .read 0
  last := .read 0

theorem child_end_unnoticed :
    (sftp_put true ⟨false, false, 0⟩ goneChild).map Prod.fst = some ⟨true, true, 1⟩ ∧
      ¬ ∀ calls, Along step NoticesDead ⟨false, false, 0⟩ calls := by
  refine ⟨by decide, fun h => ?_⟩
  have hnoeof := (noticesDead_iff _ _).mp (h [goneChild]).1
  exact absurd hnoeof (by decide)

end JitDt.Translib
