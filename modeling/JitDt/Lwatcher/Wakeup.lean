import JitDt.Lwatcher.Window

/-!
# Sleeping on a complete entry

`transfer` looks at the entry it got from `histget` without holding the mutex, and
registers itself in `histwait`, in a later critical section. A file stored in between
signals nobody. The thread sleeps on a complete entry exactly if it enters `histwait`
when the entry has become complete; a file that arrives while it sleeps wakes it up.
-/

namespace JitDt.Lwatcher

set_option autoImplicit false

open Misclib Jitcclient Machine

def Ready (s : State) (req : Request) : Prop :=
  Fulfils (s.ring.history s.ring.conshistp) s.nsize req

instance (s : State) (req : Request) : Decidable (Ready s req) :=
  inferInstanceAs (Decidable (Fulfils _ _ _))

def Pc.sleeping : Pc → Option Request
  | .histwaitWait req => some req
  | _ => none

def Pc.goingToSleep : Pc → Label → Option Request
  | .histwait req, .histwait => some req
  | _, _ => none

/-- The thread is blocked inside `histwait`, nobody signalled it, and the entry is complete. -/
def Overslept (s : State) : Prop :=
  ∃ req ∈ s.pc.sleeping, s.ring.cond2.woken = 0 ∧ Ready s req

instance (s : State) : Decidable (Overslept s) := inferInstanceAs (Decidable (∃ _, _))

/-- `histwait` is called although the entry is complete by now. -/
def SleepsReady (s : State) (l : Label) : Prop := ∃ req ∈ s.pc.goingToSleep l, Ready s req

instance (s : State) (l : Label) : Decidable (SleepsReady s l) :=
  inferInstanceAs (Decidable (∃ _, _))

/-! ## The second condition variable -/

/-- The waiters of `histwait` are counted, and at most the transfer thread is one. -/
structure Registered (s : State) : Prop where
  awake : s.pc.sleeping = none → s.ring.waithist2 = 0 ∧ s.ring.cond2 = .zero
  asleep : s.pc.sleeping ≠ none →
    s.ring.waithist2 = 1 ∧ s.ring.cond2.blocked + s.ring.cond2.woken = 1

/-- A `histput` signals the waiters of `histwait`, or leaves every entry as it was. -/
theorem histput_signals {r r' : Ring} {path : Path} {dt : Int64} {tent : Int}
    (h : histput path dt tent r = some r') :
    r'.waithist2 = r.waithist2 ∧
      (r'.cond2 = (if r.waithist2 ≠ 0 then r.cond2.signal else r.cond2) ∨
        r'.cond2 = r.cond2 ∧ r'.history = r.history ∧ r'.conshistp = r.conshistp) := by
  cases histput_cases h with
  | refused ht h' =>
    subst h'
    exact ⟨rfl, Or.inr ⟨rfl, rfl, rfl⟩⟩
  | same t ht hp hd h' =>
    subst h'
    exact ⟨rfl, Or.inl rfl⟩
  | new t ht hp hd hin h' =>
    subst h'
    unfold Ring.opened Ring.roomy
    split <;> exact ⟨rfl, Or.inl rfl⟩
  | late t ht i hi hd hdi hs h' =>
    subst h'
    exact ⟨rfl, Or.inl rfl⟩
  | lost ht hd hs h' =>
    subst h'
    exact ⟨rfl, Or.inr ⟨rfl, rfl, rfl⟩⟩

theorem signal_count (c : Cond) :
    c.signal.blocked + c.signal.woken = c.blocked + c.woken := by
  unfold Cond.signal
  split
  · rfl
  · show c.blocked - 1 + (c.woken + 1) = _
    omega

theorem signal_woken {c : Cond} (h : c.blocked + c.woken = 1) : c.signal.woken = 1 := by
  unfold Cond.signal
  split
  · omega
  · show c.woken + 1 = 1
    omega

theorem cond2_histget {r r' : Ring} {hp : Option Nat} (h : Misclib.histget r = some (r', hp)) :
    r'.waithist2 = r.waithist2 ∧ r'.cond2 = r.cond2 := by
  unfold Misclib.histget at h
  split at h
  · obtain ⟨_, _, h⟩ := Option.bind_eq_some_iff.mp h
    simp only [Option.some.injEq, Prod.mk.injEq] at h
    rw [← h.1]
    exact ⟨rfl, rfl⟩
  · simp only [Option.some.injEq, Prod.mk.injEq] at h
    rw [← h.1]
    exact ⟨rfl, rfl⟩

theorem cond2_histgetResume {r r' : Ring} {hp : Option Nat}
    (h : histgetResume r = some (r', hp)) : r'.waithist2 = r.waithist2 ∧ r'.cond2 = r.cond2 := by
  obtain ⟨_, _, h⟩ := Option.bind_eq_some_iff.mp h
  have hsame := cond2_histget h
  exact ⟨hsame.1, hsame.2⟩

theorem sleeping_got (s : State) (req : Request) (res : Ring × Option Nat) :
    (s.got req res).pc.sleeping = none := by
  obtain ⟨r, hp⟩ := res
  cases hp <;> rfl

theorem sleeping_dispatch {s : State} (h : s.pc = .command) (cmd : Cmd) (opt : Opt) :
    (s.dispatch cmd opt).pc.sleeping = none := by
  cases cmd <;> simp [State.dispatch, Pc.sleeping, h]

theorem sleeping_test {s s' : State} {req : Request} {hp : Nat} (h : s.test req hp = some s') :
    s'.pc.sleeping = none := by
  cases test_cases h <;> rfl

theorem sleeping_reply {s s' : State} {opt : Opt} {hp : Nat} {files : Fin transoptSize → FileRead}
    {heap : Memory} {sent : Bool} (h : s.reply opt hp files heap sent = some s') :
    s'.pc.sleeping = none := by
  rcases pc_reply h with h | h | h <;> (rw [h]; rfl)

/-- What one step means to a sleeping thread. -/
inductive SleepStep (s : State) (l : Label) (t : State) : Prop where
  | put (hpc : t.pc = s.pc) (hn : t.nsize = s.nsize) (hl : s.pc.goingToSleep l = none)
      (hwait : t.ring.waithist2 = s.ring.waithist2)
      (h : t.ring.cond2 = (if s.ring.waithist2 ≠ 0 then s.ring.cond2.signal else s.ring.cond2) ∨
        t.ring.cond2 = s.ring.cond2 ∧ t.ring.history = s.ring.history ∧
          t.ring.conshistp = s.ring.conshistp)
  | sleep (req : Request) (hl : s.pc.goingToSleep l = some req) (hs : s.pc.sleeping = none)
      (ht : t = { s with ring := histwait s.ring, pc := .histwaitWait req })
  | wake (hl : s.pc.goingToSleep l = none) (hs : s.pc.sleeping ≠ none) (ht : t.pc.sleeping = none)
      (h : histwaitResume s.ring = some t.ring)
  | awake (hl : s.pc.goingToSleep l = none) (hs : s.pc.sleeping = none) (ht : t.pc.sleeping = none)
      (hwait : t.ring.waithist2 = s.ring.waithist2) (h : t.ring.cond2 = s.ring.cond2)

theorem step_sleep {s t : State} {l : Label} (h : step s l = some t) : SleepStep s l t := by
  cases step_cases h with
  | histput path dt tent r hr =>
    obtain ⟨hwait, hsig⟩ := histput_signals hr
    refine .put rfl rfl ?_ hwait hsig
    cases s.pc <;> rfl
  | accept sock hpc => exact .awake (by rw [hpc]; rfl) (by rw [hpc]; rfl) rfl rfl rfl
  | command cmd opt hpc =>
    have hr := (ring_dispatch s cmd opt).1
    exact .awake (by rw [hpc]; rfl) (by rw [hpc]; rfl) (sleeping_dispatch hpc cmd opt)
      (by rw [hr]) (by rw [hr])
  | histget req res hpc hres =>
    have hr := (ring_got s req res).1
    obtain ⟨hwait, hcond⟩ := cond2_histget hres
    exact .awake (by rw [hpc]; rfl) (by rw [hpc]; rfl) (sleeping_got s req res)
      (by rw [hr, hwait]) (by rw [hr, hcond])
  | histgetWake req res hpc hres =>
    have hr := (ring_got s req res).1
    obtain ⟨hwait, hcond⟩ := cond2_histgetResume hres
    exact .awake (by rw [hpc]; rfl) (by rw [hpc]; rfl) (sleeping_got s req res)
      (by rw [hr, hwait]) (by rw [hr, hcond])
  | test req hp t hpc ht =>
    have hr := (ring_test ht).1
    exact .awake (by rw [hpc]; rfl) (by rw [hpc]; rfl) (sleeping_test ht) (by rw [hr]) (by rw [hr])
  | histwait req hpc => exact .sleep req (by rw [hpc]; rfl) (by rw [hpc]; rfl) rfl
  | histwaitWake req r hpc hr =>
    exact .wake (by rw [hpc]; rfl) (by rw [hpc]; simp [Pc.sleeping]) rfl hr
  | opened fname fd hpc => exact .awake (by rw [hpc]; rfl) (by rw [hpc]; rfl) rfl rfl rfl
  | notOpened fname hpc => exact .awake (by rw [hpc]; rfl) (by rw [hpc]; rfl) rfl rfl rfl
  | getReply files heap sent opt hp t hpc hrep =>
    have hr := (ring_reply hrep).1
    exact .awake (by rw [hpc]; rfl) (by rw [hpc]; rfl) (sleeping_reply hrep) (by rw [hr]) (by rw [hr])
  | histremove cmd r hpc hrem =>
    have hr := (ring_removed s cmd r).1
    obtain ⟨_, _, hremoved⟩ := histremove_iff.mp hrem
    exact .awake (by rw [hpc]; rfl) (by rw [hpc]; rfl) (by rw [pc_removed]; rfl)
      (by rw [hr, hremoved]; rfl) (by rw [hr, hremoved]; rfl)

theorem Registered.step {s t : State} {l : Label} (h : Registered s)
    (hstep : step s l = some t) : Registered t := by
  cases step_sleep hstep with
  | put hpc _ _ hwait hsig =>
    constructor
    · intro hs
      rw [hpc] at hs
      obtain ⟨hw, hc⟩ := h.awake hs
      refine ⟨hwait.trans hw, ?_⟩
      rcases hsig with hsig | ⟨hsame, _, _⟩
      · rw [hsig, if_neg (by simp [hw]), hc]
      · rw [hsame, hc]
    · intro hs
      rw [hpc] at hs
      obtain ⟨hw, hc⟩ := h.asleep hs
      refine ⟨hwait.trans hw, ?_⟩
      rcases hsig with hsig | ⟨hsame, _, _⟩
      · rw [hsig, if_pos (by simp [hw]), signal_count, hc]
      · rw [hsame, hc]
  | sleep req _ hs ht =>
    obtain ⟨hw, hc⟩ := h.awake hs
    subst ht
    refine ⟨fun hn => (Option.some_ne_none _ hn).elim, fun _ => ?_⟩
    simp [histwait, hw, hc, Cond.wait, Cond.zero]
  | wake _ hs ht hres =>
    obtain ⟨hw, hc⟩ := h.asleep hs
    refine ⟨fun _ => ?_, fun hn => absurd ht hn⟩
    obtain ⟨c, hresume, heq⟩ := Option.bind_eq_some_iff.mp hres
    rw [← Option.some.inj heq]
    refine ⟨by simp [hw], ?_⟩
    unfold Cond.resume at hresume
    split at hresume
    · rw [← Option.some.inj hresume]
      simp only [Cond.zero, Cond.mk.injEq]
      omega
    split at hresume
    · rw [← Option.some.inj hresume]
      simp only [Cond.zero, Cond.mk.injEq]
      omega
    · cases hresume
  | awake _ hs ht hwait hcond =>
    refine ⟨fun _ => ?_, fun hn => absurd ht hn⟩
    rw [hwait, hcond]
    exact h.awake hs

/-- Only the step into `histwait` can make the thread oversleep. -/
theorem overslept_step {s t : State} {l : Label} (hreg : Registered s) (hs : ¬ Overslept s)
    (hstep : step s l = some t) : Overslept t ↔ SleepsReady s l := by
  cases step_sleep hstep with
  | put hpc hn hl hwait hsig =>
    refine iff_of_false ?_ (by simp [SleepsReady, hl])
    rintro ⟨req, hreq, hwoken, hready⟩
    rw [hpc] at hreq
    obtain ⟨hw, hc⟩ := hreg.asleep (by rw [hreq]; simp)
    rcases hsig with hsig | ⟨hsame, hhist, hcons⟩
    · rw [hsig, if_pos (by simp [hw]), signal_woken hc] at hwoken
      cases hwoken
    · apply hs
      refine ⟨req, hreq, hsame ▸ hwoken, ?_⟩
      unfold Ready at hready ⊢
      rwa [hhist, hcons, hn] at hready
  | sleep req hl hsl ht =>
    obtain ⟨_, hc⟩ := hreg.awake hsl
    subst ht
    have hpc : (Pc.histwaitWait req).sleeping = some req := rfl
    constructor
    · rintro ⟨req', hreq', _, hready⟩
      obtain rfl : req = req' := by simpa [hpc] using hreq'
      exact ⟨req, hl, hready⟩
    · rintro ⟨req', hreq', hready⟩
      obtain rfl : req = req' := by simpa [hl] using hreq'
      refine ⟨req, hpc, ?_, hready⟩
      simp [histwait, hc, Cond.wait, Cond.zero]
  | wake hl _ ht _ =>
    refine iff_of_false ?_ (by simp [SleepsReady, hl])
    rintro ⟨req, hreq, _⟩
    rw [ht] at hreq
    cases hreq
  | awake hl _ ht _ _ =>
    refine iff_of_false ?_ (by simp [SleepsReady, hl])
    rintro ⟨req, hreq, _⟩
    rw [ht] at hreq
    cases hreq

theorem registered_init (nh : Int) (sn : Nat) : Registered (init nh sn) where
  awake := fun _ => ⟨rfl, rfl⟩
  asleep := fun h => absurd rfl h

/-- The transfer thread never sleeps in `histwait` on a complete entry, in no state of a
run, if and only if it never calls `histwait` when the entry has become complete since
it looked. -/
theorem no_lost_wakeup_iff {nh : Int} {sn : Nat} {ls : List Label} {s : State}
    (h : exec step (init nh sn) ls = some s) :
    Always step (fun s => ¬ Overslept s) (init nh sn) ls ↔
      Along step (fun s l => ¬ SleepsReady s l) (init nh sn) ls := by
  refine always_iff_along (I := Registered) ?_ (registered_init nh sn) ?_ h
  · intro s l t hreg hs hstep
    exact ⟨hreg.step hstep, not_congr (overslept_step hreg hs hstep)⟩
  · rintro ⟨req, hreq, _⟩
    cases hreq

theorem no_lost_wakeup_iff_woken :
    Always step (fun s => ¬ Overslept s) (init 5 2) [.histput ⟨[97], by decide⟩ 1 0, .accept 3,
      .command .get ![8, 8, 0], .histget, .test, .histwait, .histput ⟨[98], by decide⟩ 1 1,
      .histwaitWake] :=
  (@no_lost_wakeup_iff 5 2 _ _ rfl).mpr (by decide)

/-- The second file of the entry arrives after the check that missed it and before
`histwait`. -/
theorem lost_wakeup : ∃ s, exec step (init 5 2) [.histput ⟨[97], by decide⟩ 1 0, .accept 3,
    .command .get ![8, 8, 0], .histget, .test, .histput ⟨[98], by decide⟩ 1 1, .histwait] =
      some s ∧ Overslept s :=
  ⟨_, rfl, by decide⟩

/-! ## Where the file has to arrive -/

def Pc.looking : Pc → Bool
  | .test _ _ => true
  | .histwait _ => true
  | _ => false

/-- A file arrives between `histget` and the call of `histwait`. -/
def Intrudes (s : State) : Label → Prop
  | .histput _ _ _ => s.pc.looking = true
  | _ => False

/-- The entry looked at is the one at `conshistp`, and was incomplete if `histwait` is next. -/
structure Looked (s : State) : Prop where
  test : ∀ req hp, s.pc = .test req hp → hp = s.ring.conshistp
  histwait : ∀ req, s.pc = .histwait req → ¬ Ready s req

theorem looked_of_not_looking {s : State} (h : s.pc.looking = false) : Looked s := by
  constructor
  · intro req hp hpc
    rw [hpc] at h
    cases h
  · intro req hpc
    rw [hpc] at h
    cases h

theorem looked_got {s : State} {r : Ring} {req : Request} {res : Ring × Option Nat}
    (h : Misclib.histget r = some res) : Looked (s.got req res) := by
  obtain ⟨r', o⟩ := res
  cases o with
  | none => exact looked_of_not_looking rfl
  | some hp =>
    obtain ⟨_, rfl, hslot⟩ := histget_of_pos h
    constructor
    · intro req' hp' hpc
      simp only [State.got, Pc.test.injEq] at hpc
      rw [← hpc.2, hslot]
      rfl
    · intro req' hpc
      cases hpc

theorem looked_test {s s' : State} {req : Request} {hp : Nat} (hhp : hp = s.ring.conshistp)
    (h : s.test req hp = some s') : Looked s' := by
  cases test_cases h with
  | missing hnot =>
    refine ⟨fun _ _ hpc => Pc.noConfusion hpc, ?_⟩
    intro req' hpc
    obtain rfl : req = req' := by simpa using hpc
    rw [hhp] at hnot
    exact hnot
  | opened => exact looked_of_not_looking rfl
  | served => exact looked_of_not_looking rfl

theorem Looked.step {s t : State} {l : Label} (h : Looked s) (hl : ¬ Intrudes s l)
    (hstep : step s l = some t) : Looked t := by
  cases step_cases hstep with
  | histput path dt tent r _ => exact looked_of_not_looking (Bool.eq_false_iff.mpr hl)
  | accept sock _ => exact looked_of_not_looking rfl
  | command cmd opt hpc =>
    apply looked_of_not_looking
    cases cmd <;> simp [State.dispatch, Pc.looking, hpc]
  | histget req res _ hres => exact looked_got hres
  | histgetWake req res _ hres =>
    obtain ⟨_, hres⟩ := histget_of_resume hres
    exact looked_got hres
  | test req hp t hpc ht => exact looked_test (h.test req hp hpc) ht
  | histwait req _ => exact looked_of_not_looking rfl
  | histwaitWake req r _ _ => exact looked_of_not_looking rfl
  | opened fname fd _ => exact looked_of_not_looking rfl
  | notOpened fname _ => exact looked_of_not_looking rfl
  | getReply files heap sent opt hp t _ hrep =>
    apply looked_of_not_looking
    rcases pc_reply hrep with h | h | h <;> (rw [h]; rfl)
  | histremove cmd r _ _ =>
    apply looked_of_not_looking
    rw [pc_removed]
    rfl

theorem Looked.not_sleepsReady {s : State} (h : Looked s) (l : Label) : ¬ SleepsReady s l := by
  rintro ⟨req, hreq, hready⟩
  unfold Pc.goingToSleep at hreq
  split at hreq
  · rename_i req' hpc
    obtain rfl : req' = req := by simpa using hreq
    exact h.histwait req' hpc hready
  · cases hreq

/-- The watcher loses a wake-up only by a put between `histget` and `histwait`. -/
theorem no_lost_wakeup_of_no_intrusion {nh : Int} {sn : Nat} {ls : List Label} {s : State}
    (h : exec step (init nh sn) ls = some s)
    (hput : Along step (fun s l => ¬ Intrudes s l) (init nh sn) ls) :
    Always step (fun s => ¬ Overslept s) (init nh sn) ls := by
  intro pre t hpre ht
  obtain ⟨suf, rfl⟩ := hpre
  have hput' := ((along_append_iff ht).mp hput).1
  have hall : Registered t ∧ Looked t ∧ ¬ Overslept t := by
    refine exec_invariant_along (I := fun s => Registered s ∧ Looked s ∧ ¬ Overslept s) ?_ ?_
      hput' ht
    · rintro s l t ⟨hreg, hlook, hs⟩ hl hstep
      refine ⟨hreg.step hstep, hlook.step hl hstep, ?_⟩
      intro hover
      exact hlook.not_sleepsReady l ((overslept_step hreg hs hstep).mp hover)
    · refine ⟨registered_init nh sn, looked_of_not_looking rfl, ?_⟩
      rintro ⟨req, hreq, _⟩
      cases hreq
  exact hall.2.2

end JitDt.Lwatcher
