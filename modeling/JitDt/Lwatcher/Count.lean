import JitDt.Lwatcher.Window

/-!
# `numhist` as a count

`_histremove` lowers `numhist` without looking at it. After a reply to `CMD_GET` an
entry is waiting, and the removal a `histput` forces gives back what the put added, so
only `CMD_CLOSE` can lower an empty count. The client may send it on a connection
that opened nothing.
-/

namespace JitDt.Lwatcher

set_option autoImplicit false

open Misclib Jitcclient Machine

def Counted (s : State) : Prop :=
  0 ≤ s.ring.numhist ∧ s.ring.numhist ≤ s.ring.nhist - keepFileCount

instance (s : State) : Decidable (Counted s) := inferInstanceAs (Decidable (_ ∧ _))

def Pc.closing : Pc → Label → Bool
  | .histremove .close, .histremove => true
  | _, _ => false

/-- A `CMD_CLOSE` is carried out while no entry waits. -/
def ClosesEmpty (s : State) (l : Label) : Prop :=
  s.pc.closing l = true ∧ s.ring.numhist = 0

instance (s : State) (l : Label) : Decidable (ClosesEmpty s l) :=
  inferInstanceAs (Decidable (_ ∧ _))

theorem closing_label {pc : Pc} {l : Label} (h : pc.closing l = true) : l = .histremove := by
  unfold Pc.closing at h
  split at h
  · rfl
  · cases h

/-- The transfer thread took an entry and has not given it up. -/
def Pc.Holding : Pc → Prop
  | .test _ _ => True
  | .serve _ _ => True
  | .histremove .close => False
  | .histremove _ => True
  | _ => False

def Held (s : State) : Prop := s.pc.Holding → 0 < s.ring.numhist

theorem holding_got {s : State} {r : Ring} {req : Request} {res : Ring × Option Nat}
    (h : Misclib.histget r = some res) : Held (s.got req res) := by
  obtain ⟨r', o⟩ := res
  cases o with
  | none => exact fun hpc => hpc.elim
  | some hp =>
    obtain ⟨hpos, rfl, _⟩ := histget_of_pos h
    exact fun _ => hpos

theorem holding_test {s s' : State} {req : Request} {hp : Nat} (h : s.test req hp = some s')
    (hs : 0 < s.ring.numhist) : Held s' := by
  intro _
  rw [(ring_test h).1]
  exact hs

theorem numhist_put {r r' : Ring} {P C : Nat} {path : Path} {dt : Int64} {tent : Int}
    (hat : At r P C) (h : histput path dt tent r = some r') : r.numhist ≤ r'.numhist := by
  cases hat.histput_effect h with
  | kept _ _ _ hnum => exact le_of_eq hnum.symm
  | opened _ _ _ _ hnum =>
    rw [hnum]
    split <;> omega

theorem Held.step {s t : State} {l : Label} {P C : Nat} (hat : At s.ring P C) (h : Held s)
    (hstep : step s l = some t) : Held t := by
  cases step_cases hstep with
  | histput path dt tent r hr => exact fun hpc => (h hpc).trans_le (numhist_put hat hr)
  | accept sock _ => exact fun hpc => hpc.elim
  | command cmd opt hpc =>
    cases cmd with
    | read => exact h
    | status => exact h
    | reply => exact h
    | _ => exact fun hpc => hpc.elim
  | histget req res _ hres => exact holding_got hres
  | histgetWake req res _ hres =>
    obtain ⟨_, hres⟩ := histget_of_resume hres
    exact holding_got hres
  | test req hp t hpc ht =>
    apply holding_test ht
    apply h
    rw [hpc]
    trivial
  | histwait req _ => exact fun hpc => hpc.elim
  | histwaitWake req r _ _ => exact fun hpc => hpc.elim
  | opened fname fd _ => exact fun hpc => hpc.elim
  | notOpened fname _ => exact fun hpc => hpc.elim
  | getReply files heap sent opt hp t hpc hrep =>
    intro _
    rw [(ring_reply hrep).1]
    apply h
    rw [hpc]
    trivial
  | histremove cmd r _ _ =>
    intro hpc
    rw [pc_removed] at hpc
    exact hpc.elim

/-- A removal keeps the count unless it is that of a `CMD_CLOSE` on an empty ring. -/
theorem counted_step {s t : State} {l : Label} {P C : Nat} (hat : At s.ring P C) (hheld : Held s)
    (hs : Counted s) (hstep : step s l = some t) : Counted t ↔ ¬ ClosesEmpty s l := by
  have hpos := hs.1
  cases step_effect hstep with
  | histput path dt tent hl hput _ _ =>
    refine iff_of_true ?_ fun hc => by cases hl.symm.trans (closing_label hc.1)
    obtain ⟨P', hat'⟩ := hat.histput hput
    exact ⟨hpos.trans (numhist_put hat hput), hat'.num_le⟩
  | getReply files heap sent opt hp hl _ hr _ =>
    refine iff_of_true ?_ fun hc => by cases hl.symm.trans (closing_label hc.1)
    unfold Counted
    rw [hr]
    exact hs
  | quiet _ hrem _ hsame _ =>
    refine iff_of_true ?_ fun hc => hrem (closing_label hc.1)
    unfold Counted
    rw [hsame.numhist, hsame.nhist]
    exact hs
  | histremove hl hrem _ =>
    subst hl
    have hr := step_histremove hstep
    have hnum : t.ring.numhist = s.ring.numhist - 1 := by rw [hr]; rfl
    have hn : t.ring.nhist = s.ring.nhist := by rw [hr]; rfl
    have hcount : Counted t ↔ s.ring.numhist ≠ 0 := by
      unfold Counted
      rw [hnum, hn]
      have := hs.2
      omega
    rw [hcount]
    cases step_cases hstep with
    | histremove cmd r hpc _ =>
      have hnz : cmd ≠ .close → s.ring.numhist ≠ 0 := by
        intro hcmd
        have hlt : 0 < s.ring.numhist := by
          apply hheld
          rw [hpc]
          cases cmd with
          | close => exact absurd rfl hcmd
          | _ => trivial
        omega
      constructor
      · exact fun h hc => h hc.2
      · intro h hz
        apply h
        refine ⟨?_, hz⟩
        rw [hpc]
        cases cmd with
        | close => rfl
        | _ => exact absurd hz (hnz (by simp))

/-- `numhist` stays between `0` and `nhist - KEEP_FILE_COUNT` in all states of a run if
and only if no `CMD_CLOSE` is carried out in it while the ring holds no entry. -/
theorem numhist_count_iff {nh : Int} {sn : Nat} {ls : List Label} {s : State}
    (h : exec step (init nh sn) ls = some s) :
    Always step Counted (init nh sn) ls ↔
      Along step (fun s l => ¬ ClosesEmpty s l) (init nh sn) ls := by
  have h₀ : Counted (init nh sn) := ⟨le_refl 0, (at_histinit nh).num_le⟩
  refine always_iff_along (I := fun s => (∃ P C, At s.ring P C) ∧ Held s) ?_
    ⟨⟨0, 0, at_histinit nh⟩, fun hpc => hpc.elim⟩ h₀ h
  rintro s l t ⟨⟨P, C, hat⟩, hheld⟩ hcount hstep
  refine ⟨⟨?_, hheld.step hat hstep⟩, counted_step hat hheld hcount hstep⟩
  exact at_step ⟨P, C, hat⟩ hstep

theorem numhist_count_iff_get :
    Always step Counted (init 5 1) [.histput ⟨[97], by decide⟩ 1 0, .accept 3,
      .command .get ![8, 0, 0], .histget, .test,
      .getReply ![.content [1], .noOpen, .noOpen] (fun _ => 0) true, .histremove] :=
  (@numhist_count_iff 5 1 _ _ rfl).mpr (by decide)

/-- A client connects and sends `CMD_CLOSE` before any file arrived. -/
theorem numhist_negative : ∃ s, exec step (init 5 1)
    [.accept 3, .command .close 0, .histremove] = some s ∧ s.ring.numhist = -1 ∧ ¬ Counted s :=
  ⟨_, rfl, by decide, by decide⟩

end JitDt.Lwatcher
