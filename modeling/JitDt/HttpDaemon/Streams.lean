import JitDt.HttpDaemon.Upload
import JitDt.Lib.Handles
import JitDt.Lib.Machine

/-!
# The streams of http_daemon

The daemon handles any number of uploads at a time, each with a context of its own. The stream of
a context is opened and closed by `post_progress` and closed by the last call of `uploadfile`; if
the client goes away only `reqcomplete` is called, which closes nothing. `fclose` ends a stream
also when it reports an error.
-/

namespace JitDt.HttpDaemon.Streams

set_option autoImplicit false

open Machine

/-- A stream and its file name are set together. -/
structure Context where
  fp : Option Nat
  fname : Option CStr
  named : fname.isSome = fp.isSome

def Context.new : Context := ⟨none, none, rfl⟩

/-- The write loop calls `fwrite` as long as there is something to write. -/
def fwrites (streams : Handles) (fp : Nat) (data : List UInt8) : Handles :=
  if data = [] then streams else streams.use fp

/-- A different file is now uploading. -/
def differs (d : Delivery) (cntxt : Context) (filename : CStr) : Bool :=
  cntxt.fname.any fun fname => fname ≠ filename && d.off = 0

/-- What `post_progress` does from the point where it finds no stream. -/
def createFile (d : Delivery) (filename : CStr) (cntxt : Context) (streams : Handles) :
    Bool × Context × Handles :=
  if d.stdio.fopen then
    (true, ⟨some streams.next, some filename, rfl⟩, fwrites streams.acquire streams.next d.data)
  else (false, cntxt, streams)

def post_progress (d : Delivery) (cntxt : Context) (streams : Handles) :
    Option (Bool × Context × Handles) :=
  match d.ctype, d.filename with
  | none, _ => some (true, cntxt, streams)
  | some _, none => none
  | some _, some filename =>
    match cntxt.fp with
    | none => some (createFile d filename cntxt streams)
    | some fp =>
      if differs d cntxt filename then
        if d.stdio.fclose then some (createFile d filename cntxt (streams.release fp))
        else some (false, cntxt, streams.release fp)
      else some (true, cntxt, fwrites streams fp d.data)

structure State where
  streams : Handles
  con : Nat → Option Context

/-- The first call of `uploadfile` for a request, a part of its body, its last call, or the end of
a request whose client has gone. -/
inductive Label where
  | request (i : Nat)
  | progress (i : Nat) (d : Delivery)
  | finish (i : Nat)
  | abort (i : Nat)

def init : State := ⟨.empty, fun _ => none⟩

def State.setCon (s : State) (i : Nat) (c : Option Context) (streams : Handles) : State :=
  ⟨streams, Function.update s.con i c⟩

/-- The last call of `uploadfile`. -/
def closeLast (cntxt : Context) (streams : Handles) : Handles :=
  match cntxt.fp with
  | none => streams
  | some fp => streams.release fp

def step (s : State) : Label → Option State
  | .request i =>
    match s.con i with
    | none => some (s.setCon i (some .new) s.streams)
    | some _ => none
  | .progress i d => do
    let cntxt ← s.con i
    let (_, cntxt', streams') ← post_progress d cntxt s.streams
    some (s.setCon i (some cntxt') streams')
  | .finish i => do
    let cntxt ← s.con i
    some (s.setCon i none (closeLast cntxt s.streams))
  | .abort i => do
    let _ ← s.con i
    some (s.setCon i none s.streams)

/-- A part with another name begins, and the old file cannot be closed without an error or the new
one cannot be opened. -/
def FailsSwitch (d : Delivery) (cntxt : Context) : Prop :=
  d.ctype.isSome ∧ d.off = 0 ∧ (d.stdio.fclose = false ∨ d.stdio.fopen = false) ∧
    ∃ fname filename, cntxt.fname = some fname ∧ d.filename = some filename ∧ fname ≠ filename

def BadSwitch (s : State) : Label → Prop
  | .progress i d => ∃ cntxt, s.con i = some cntxt ∧ FailsSwitch d cntxt
  | _ => False

/-- The client of a request with an open file goes away. -/
def abandons (s : State) : Label → Bool
  | .abort i => (s.con i).any fun cntxt => cntxt.fp.isSome
  | _ => false

/-- No request is being handled. -/
def State.Idle (s : State) : Prop := ∀ i, s.con i = none

/-! ## One call -/

section Calls
variable {d : Delivery} {cntxt : Context} {streams : Handles} {r : Bool × Context × Handles}

/-- The context and the streams after a call of `post_progress`. -/
inductive Progressed (d : Delivery) (cntxt : Context) (streams : Handles) :
    Context → Handles → Prop where
  | skip : Progressed d cntxt streams cntxt streams
  | write (fp : Nat) (hfp : cntxt.fp = some fp) :
      Progressed d cntxt streams cntxt (fwrites streams fp d.data)
  | create (cntxt' : Context) (hfp : cntxt.fp = none) (hnew : cntxt'.fp = some streams.next) :
      Progressed d cntxt streams cntxt' (fwrites streams.acquire streams.next d.data)
  | switch (fp : Nat) (cntxt' : Context) (hfp : cntxt.fp = some fp)
      (hnew : cntxt'.fp = some streams.next) :
      Progressed d cntxt streams cntxt' (fwrites (streams.release fp).acquire streams.next d.data)
  | fail (fp : Nat) (hfp : cntxt.fp = some fp) (hfail : FailsSwitch d cntxt) :
      Progressed d cntxt streams cntxt (streams.release fp)

/-- There is a stream whenever there is a name. -/
theorem Context.exists_fp {fname : CStr} (h : cntxt.fname = some fname) : ∃ fp, cntxt.fp = some fp := by
  have hnamed := cntxt.named
  rw [h] at hnamed
  exact Option.isSome_iff_exists.mp hnamed.symm

theorem differs_iff {filename : CStr} : differs d cntxt filename = true ↔
    ∃ fname, cntxt.fname = some fname ∧ fname ≠ filename ∧ d.off = 0 := by
  unfold differs
  cases cntxt.fname <;> simp

theorem post_progress_cases (h : post_progress d cntxt streams = some r) :
    Progressed d cntxt streams r.2.1 r.2.2 := by
  unfold post_progress at h
  split at h
  · rw [← Option.some.inj h]
    exact .skip
  · cases h
  · rename_i ctype filename hctype hfilename
    split at h
    · rename_i hfp
      rw [← Option.some.inj h]
      unfold createFile
      split
      · exact .create _ hfp rfl
      · exact .skip
    · rename_i fp hfp
      split at h
      · rename_i hdiffers
        obtain ⟨fname, hfname, hne, hoff⟩ := differs_iff.mp hdiffers
        have hfail : d.stdio.fclose = false ∨ d.stdio.fopen = false → FailsSwitch d cntxt := by
          intro hstdio
          exact ⟨by simp [hctype], hoff, hstdio, fname, filename, hfname, hfilename, hne⟩
        split at h
        · rw [← Option.some.inj h]
          unfold createFile
          split
          · exact .switch fp _ hfp rfl
          · rename_i hfopen
            exact .fail fp hfp (hfail (.inr (Bool.eq_false_of_not_eq_true hfopen)))
        · rename_i hfclose
          rw [← Option.some.inj h]
          exact .fail fp hfp (hfail (.inl (Bool.eq_false_of_not_eq_true hfclose)))
      · rw [← Option.some.inj h]
        exact .write fp hfp

/-- A switch that fails leaves the closed stream in the context. -/
theorem post_progress_fails (hfail : FailsSwitch d cntxt) (h : post_progress d cntxt streams = some r) :
    ∃ fp, cntxt.fp = some fp ∧ r = (false, cntxt, streams.release fp) := by
  obtain ⟨hctype, hoff, hstdio, fname, filename, hfname, hfilename, hne⟩ := hfail
  obtain ⟨ctype, hctype⟩ := Option.isSome_iff_exists.mp hctype
  obtain ⟨fp, hfp⟩ := cntxt.exists_fp hfname
  refine ⟨fp, hfp, ?_⟩
  simp only [post_progress, hctype, hfilename, hfp] at h
  rw [if_pos (differs_iff.mpr ⟨fname, hfname, hne, hoff⟩)] at h
  cases hfclose : d.stdio.fclose with
  | false =>
    simp only [hfclose, Bool.false_eq_true, if_false] at h
    exact (Option.some.inj h).symm
  | true =>
    have hfopen : d.stdio.fopen = false := by simpa [hfclose] using hstdio
    simp only [hfclose, if_true, createFile, hfopen, Bool.false_eq_true, if_false] at h
    exact (Option.some.inj h).symm

/-- Seen by file names, a call is that of a single request. -/
theorem post_progress_refines (d : Delivery) (cntxt : Context) (streams : Handles) (fs : Files) :
    (HttpDaemon.post_progress d ⟨cntxt.fname, cntxt.fname⟩ fs).map (fun r => (r.1, r.2.1)) =
      (post_progress d cntxt streams).map fun r => (r.1, ⟨r.2.1.fname, r.2.1.fname⟩) := by
  obtain ⟨fp, fname, hnamed⟩ := cntxt
  unfold HttpDaemon.post_progress post_progress
  cases d.ctype with
  | none => rfl
  | some ctype =>
    cases d.filename with
    | none => rfl
    | some filename =>
      cases fname with
      | none =>
        obtain rfl : fp = none := by simpa using hnamed.symm
        cases hfopen : d.stdio.fopen <;> simp [createFile, hfopen]
      | some fname =>
        obtain ⟨fp, rfl⟩ : ∃ k, fp = some k := Option.isSome_iff_exists.mp hnamed.symm
        have hdiffers : differs d ⟨some fp, some fname, hnamed⟩ filename =
            (decide (fname ≠ filename) && decide (d.off = 0)) := rfl
        simp only [hdiffers]
        cases decide (fname ≠ filename) && decide (d.off = 0) with
        | false => simp
        | true =>
          cases hfclose : d.stdio.fclose <;> cases hfopen : d.stdio.fopen <;>
            simp [createFile, hfopen]

end Calls

/-! ## Runs -/

/-- The stream that the context of a request holds. -/
def State.held (s : State) (i : Nat) : Option Nat := (s.con i).bind Context.fp

section Steps
variable {s t : State} {l : Label} {i : Nat} {cntxt : Context} {lost : Finset Nat}

theorem held_setCon (s : State) (i : Nat) (c : Option Context) (streams : Handles) :
    (s.setCon i c streams).held = Function.update s.held i (c.bind Context.fp) := by
  funext j
  unfold State.held State.setCon
  by_cases hj : j = i
  · subst hj
    simp
  · simp [hj]

theorem held_of_con (h : s.con i = some cntxt) : s.held i = cntxt.fp := by
  unfold State.held
  rw [h]
  rfl

/-- A context that holds what it held. -/
theorem held_same {c : Option Context} {streams : Handles} (h : c.bind Context.fp = s.held i) :
    (s.setCon i c streams).held = s.held := by
  rw [held_setCon, h, Function.update_eq_self]

theorem accounted_fwrites {streams : Handles} {held : Nat → Option Nat} {fp : Nat}
    (ha : streams.Accounted held lost) (hi : held i = some fp) (data : List UInt8) :
    (fwrites streams fp data).Accounted held lost := by
  unfold fwrites
  split
  · exact ha
  · exact ha.use hi

theorem dangles_fwrites {streams : Handles} {held : Nat → Option Nat} (hd : streams.Dangles held)
    (fp : Nat) (data : List UInt8) : (fwrites streams fp data).Dangles held := by
  unfold fwrites
  split
  · exact hd
  · exact hd.use fp

theorem accounted_progress (ha : s.streams.Accounted s.held lost) (hcon : s.con i = some cntxt)
    {d : Delivery} (hgood : ¬ FailsSwitch d cntxt) {cntxt' : Context} {streams' : Handles}
    (hp : Progressed d cntxt s.streams cntxt' streams') :
    streams'.Accounted (s.setCon i (some cntxt') streams').held lost := by
  have hheld := held_of_con hcon
  cases hp with
  | skip =>
    rw [held_same (c := some cntxt) hheld.symm]
    exact ha
  | write fp hfp =>
    rw [held_same (c := some cntxt) hheld.symm]
    exact accounted_fwrites ha (hheld.trans hfp) d.data
  | create cntxt' hfp hnew =>
    rw [held_setCon, Option.bind_some, hnew]
    exact accounted_fwrites (ha.acquire (hheld.trans hfp)) (Function.update_self ..) d.data
  | switch fp cntxt' hfp hnew =>
    have hreleased := ha.release (hheld.trans hfp)
    have hacquired := hreleased.acquire (i := i) (Function.update_self ..)
    rw [Function.update_idem] at hacquired
    rw [held_setCon, Option.bind_some, hnew]
    exact accounted_fwrites hacquired (Function.update_self ..) d.data
  | fail fp hfp hfail => exact absurd hfail hgood

theorem dangles_progress (hd : s.streams.Dangles s.held) (hcon : s.con i = some cntxt)
    {d : Delivery} {cntxt' : Context} {streams' : Handles}
    (hp : Progressed d cntxt s.streams cntxt' streams') :
    streams'.Dangles (s.setCon i (some cntxt') streams').held := by
  have hheld := held_of_con hcon
  cases hp with
  | skip =>
    rw [held_same (c := some cntxt) hheld.symm]
    exact hd
  | write fp hfp =>
    rw [held_same (c := some cntxt) hheld.symm]
    exact dangles_fwrites hd fp d.data
  | create cntxt' hfp hnew =>
    rw [held_setCon, Option.bind_some, hnew]
    exact dangles_fwrites (hd.acquire (hheld.trans hfp)) _ d.data
  | switch fp cntxt' hfp hnew =>
    have hacquired := (hd.release (hheld.trans hfp)).acquire (i := i) (Function.update_self ..)
    rw [Function.update_idem] at hacquired
    rw [held_setCon, Option.bind_some, hnew]
    exact dangles_fwrites hacquired _ d.data
  | fail fp hfp hfail =>
    rw [held_same (c := some cntxt) hheld.symm]
    exact hd.release_kept fp

/-! ### Steps -/

inductive StepCases (s : State) : Label → State → Prop where
  | request (i : Nat) (hcon : s.con i = none) :
      StepCases s (.request i) (s.setCon i (some .new) s.streams)
  | progress (i : Nat) (d : Delivery) (cntxt : Context) (r : Bool × Context × Handles)
      (hcon : s.con i = some cntxt) (hr : post_progress d cntxt s.streams = some r) :
      StepCases s (.progress i d) (s.setCon i (some r.2.1) r.2.2)
  | finish (i : Nat) (cntxt : Context) (hcon : s.con i = some cntxt) :
      StepCases s (.finish i) (s.setCon i none (closeLast cntxt s.streams))
  | abort (i : Nat) (cntxt : Context) (hcon : s.con i = some cntxt) :
      StepCases s (.abort i) (s.setCon i none s.streams)

theorem step_cases (h : step s l = some t) : StepCases s l t := by
  unfold step at h
  split at h
  · split at h
    · rw [← Option.some.inj h]
      exact .request _ ‹_›
    · cases h
  · obtain ⟨cntxt, hcon, h⟩ := Option.bind_eq_some_iff.mp h
    obtain ⟨r, hr, h⟩ := Option.bind_eq_some_iff.mp h
    rw [← Option.some.inj h]
    exact .progress _ _ cntxt r hcon hr
  · obtain ⟨cntxt, hcon, h⟩ := Option.bind_eq_some_iff.mp h
    rw [← Option.some.inj h]
    exact .finish _ cntxt hcon
  · obtain ⟨cntxt, hcon, h⟩ := Option.bind_eq_some_iff.mp h
    rw [← Option.some.inj h]
    exact .abort _ cntxt hcon

/-- The open streams are those of the contexts and those of abandoned requests. -/
theorem accounted_step (ha : s.streams.Accounted s.held lost) (hgood : ¬ BadSwitch s l)
    (hstep : step s l = some t) : ∃ lost', t.streams.Accounted t.held lost' ∧
      lost'.card = lost.card + if abandons s l then 1 else 0 := by
  cases step_cases hstep with
  | request i hcon =>
    refine ⟨lost, ?_, rfl⟩
    rw [held_same (c := some .new) (by simp [State.held, hcon, Context.new])]
    exact ha
  | progress i d cntxt r hcon hr =>
    refine ⟨lost, accounted_progress ha hcon ?_ (post_progress_cases hr), rfl⟩
    exact fun hfail => hgood ⟨cntxt, hcon, hfail⟩
  | finish i cntxt hcon =>
    have hheld := held_of_con hcon
    refine ⟨lost, ?_, rfl⟩
    unfold closeLast
    split
    · rename_i hfp
      rw [held_same (c := none) (by rw [hheld, hfp]; rfl)]
      exact ha
    · rename_i fp hfp
      rw [held_setCon]
      exact ha.release (hheld.trans hfp)
  | abort i cntxt hcon =>
    have hheld := held_of_con hcon
    cases hfp : cntxt.fp with
    | none =>
      refine ⟨lost, ?_, by simp [abandons, hcon, hfp]⟩
      rw [held_same (c := none) (by rw [hheld, hfp]; rfl)]
      exact ha
    | some fp =>
      have hi := hheld.trans hfp
      refine ⟨insert fp lost, ?_, ?_⟩
      · rw [held_setCon]
        exact ha.lose hi
      · rw [Finset.card_insert_of_notMem (ha.apart hi)]
        simp [abandons, hcon, hfp]

/-- A closed stream in a context stays there until it is used. -/
theorem dangles_step (hd : s.streams.Dangles s.held) (hl : ∀ i, l ≠ .abort i)
    (hstep : step s l = some t) : t.streams.Dangles t.held := by
  cases step_cases hstep with
  | request i hcon =>
    rw [held_same (c := some .new) (by simp [State.held, hcon, Context.new])]
    exact hd
  | progress i d cntxt r hcon hr => exact dangles_progress hd hcon (post_progress_cases hr)
  | finish i cntxt hcon =>
    have hheld := held_of_con hcon
    unfold closeLast
    split
    · rename_i hfp
      rw [held_same (c := none) (by rw [hheld, hfp]; rfl)]
      exact hd
    · rename_i fp hfp
      rw [held_setCon]
      exact hd.release (hheld.trans hfp)
  | abort i cntxt hcon => exact absurd rfl (hl i)

theorem dangles_of_badSwitch (ha : s.streams.Accounted s.held lost) (hbad : BadSwitch s l)
    (hstep : step s l = some t) : t.streams.Dangles t.held := by
  cases step_cases hstep with
  | progress i d cntxt r hcon hr =>
    obtain ⟨cntxt', hcon', hfail⟩ := hbad
    rw [hcon] at hcon'
    obtain rfl := Option.some.inj hcon'
    obtain ⟨fp, hfp, rfl⟩ := post_progress_fails hfail hr
    have hi := (held_of_con hcon).trans hfp
    rw [held_same (c := some cntxt) (held_of_con hcon).symm]
    exact .of_release hi (s.streams.lt_next _ (ha.live hi))
  | request | finish | abort => exact hbad.elim

theorem held_idle (h : s.Idle) (i : Nat) : s.held i = none := by
  unfold State.held
  rw [h i]
  rfl

/-! ### Runs -/

variable {ls : List Label}

theorem exec_accounted (hrun : exec step init ls = some s)
    (hgood : Along step (fun s l => ¬ BadSwitch s l) init ls) :
    ∃ lost, s.streams.Accounted s.held lost ∧
      lost.card = countAlong step (fun s l => abandons s l = true) init ls := by
  refine exec_invariant_past (I := fun ls s => Along step (fun s l => ¬ BadSwitch s l) init ls →
    ∃ lost, s.streams.Accounted s.held lost ∧
      lost.card = countAlong step (fun s l => abandons s l = true) init ls) ?_ ?_ hrun hgood
  · exact fun _ => ⟨∅, Handles.accounted_empty, rfl⟩
  · intro ls s l t hrun ih hstep hgood
    obtain ⟨hpast, hl⟩ := (along_snoc_iff hrun).mp hgood
    obtain ⟨lost, ha, hcard⟩ := ih hpast
    obtain ⟨lost', ha', hcard'⟩ := accounted_step ha hl hstep
    exact ⟨lost', ha', by rw [hcard', hcard, countAlong_snoc hrun]⟩

/-- When all requests are over, whatever their order and their chunks: no closed stream has been
used, and one stream is open for good for each client that went away during its upload. -/
theorem abandoned_streams_stay_open (hrun : exec step init ls = some s)
    (hgood : Along step (fun s l => ¬ BadSwitch s l) init ls) (hidle : s.Idle) :
    s.streams.misused = false ∧
      s.streams.live.card = countAlong step (fun s l => abandons s l = true) init ls := by
  obtain ⟨lost, ha, hcard⟩ := exec_accounted hrun hgood
  exact ⟨ha.unused, by rw [ha.live_eq_lost (held_idle hidle), hcard]⟩

theorem not_badSwitch_good (s : State) (i : Nat) {d : Delivery} (h : d.stdio = .good) :
    ¬ BadSwitch s (.progress i d) := by
  rintro ⟨_, _, _, _, hstdio, _⟩
  rw [h] at hstdio
  rcases hstdio with hstdio | hstdio <;> cases hstdio

theorem nul_free_up : (0 : UInt8) ∉ [117] := by decide

theorem nul_free_other : (0 : UInt8) ∉ [118] := by decide

def upName : CStr := ⟨[117], nul_free_up⟩

def otherName : CStr := ⟨[118], nul_free_other⟩

/-- Two uploads at a time, the first of two files; the client of the second one goes away. -/
def abandonOne : List Label :=
  [.request 0, .request 1, .progress 0 ⟨some upName, some upName, [1], 0, .good⟩,
    .progress 1 ⟨some upName, some upName, [1], 0, .good⟩, .abort 1,
    .progress 0 ⟨some otherName, some upName, [2], 0, .good⟩, .finish 0]

theorem abandoned_streams_stay_open_one :
    ∃ s, exec step init abandonOne = some s ∧ s.streams.misused = false ∧
      s.streams.live.card = 1 := by
  refine ⟨_, rfl, abandoned_streams_stay_open (show exec step init abandonOne = some _ from rfl)
    ⟨id, id, not_badSwitch_good _ _ rfl, not_badSwitch_good _ _ rfl, id,
      not_badSwitch_good _ _ rfl, id, trivial⟩ ?_⟩
  intro i
  rcases i with _ | _ | i <;> rfl

theorem exec_dangles {u : State} (ha : u.streams.Accounted u.held lost)
    (hrun : exec step u ls = some s) (hstay : ∀ l ∈ ls, ∀ i, l ≠ .abort i)
    (hbad : ¬ Along step (fun s l => ¬ BadSwitch s l) u ls) : s.streams.Dangles s.held := by
  induction ls generalizing u lost with
  | nil => exact absurd trivial hbad
  | cons l ls ih =>
    obtain ⟨v, hv, hvs⟩ := exec_cons_iff.mp hrun
    obtain ⟨hl, hrest⟩ := List.forall_mem_cons.mp hstay
    by_cases hnow : BadSwitch u l
    · exact exec_invariant_along (I := fun s => s.streams.Dangles s.held)
        (C := fun _ l => ∀ i, l ≠ .abort i) (fun hd hl hstep => dangles_step hd hl hstep)
        (dangles_of_badSwitch ha hnow hv) (along_of_forall hrest) hvs
    · obtain ⟨lost', ha', _⟩ := accounted_step ha hnow hv
      refine ih ha' hvs hrest fun hgood => hbad ?_
      exact (along_cons_iff hv).mpr ⟨hnow, hgood⟩

/-- When all requests have come to their end: a closed stream has been used exactly if some switch
to another file failed. -/
theorem no_misuse_iff (hrun : exec step init ls = some s) (hstay : ∀ l ∈ ls, ∀ i, l ≠ .abort i)
    (hidle : s.Idle) :
    s.streams.misused = false ↔ Along step (fun s l => ¬ BadSwitch s l) init ls := by
  constructor
  · intro hunused
    by_contra hbad
    have hd := exec_dangles (u := init) Handles.accounted_empty hrun hstay hbad
    rw [hd.misused_of_none (held_idle hidle)] at hunused
    cases hunused
  · exact fun hgood => (abandoned_streams_stay_open hrun hgood hidle).1

/-- The second file of an upload cannot be created: the stream of the first one is closed twice. -/
def failSwitch : List Label :=
  [.request 0, .progress 0 ⟨some upName, some upName, [1], 0, .good⟩,
    .progress 0 ⟨some otherName, some upName, [2], 0, ⟨true, false⟩⟩, .finish 0]

theorem no_misuse_iff_switch :
    ∃ s, exec step init failSwitch = some s ∧ s.streams.misused = true ∧
      ¬ Along step (fun s l => ¬ BadSwitch s l) init failSwitch := by
  refine ⟨_, rfl, rfl, fun hgood => ?_⟩
  have hunused := (no_misuse_iff (show exec step init failSwitch = some _ from rfl) ?_ ?_).mpr hgood
  · cases hunused
  · simp [failSwitch]
  · intro i
    rcases i with _ | i <;> rfl

end Steps

end JitDt.HttpDaemon.Streams
