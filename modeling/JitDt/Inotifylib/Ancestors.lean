import JitDt.Inotifylib.Paths

/-!
# The watches above the current directory

`rm_watch` removes the watch of a former current directory when ten more have been queued behind
it, and does not ask whether that directory lies above the current one again. A directory event
keeps the way to the top watched exactly if the way was whole before it and the descriptor that
`rm_watch` takes out does not belong to it; a restart always mends it.
-/

namespace JitDt.Inotifylib

set_option autoImplicit false

open PathName (slash parts EndsSlash)

/-- No directory has been removed and created again. -/
def Lasting (w : World) : Prop := ∀ a g, w.live a = some g → g = 0

def AllWatched (topdir : Path) (s : Notify) : Prop :=
  ∀ a, parts topdir <+: a → a <+: parts (s.getwdir s.curdir) → ∃ n, s.ino.watch ⟨a, 0⟩ = some n

/-- Directories are only created, and the path of a new one fits. -/
def Growing (s : Notify) : Action → Prop
  | .gone _ => False
  | .event e w w' => Lasting w ∧ Lasting w' ∧ (Created w e s → (s.avpath e).length < pathMax)

/-- The directory is watched, and not by the descriptor that `rm_watch` takes out at an event of
the descriptor `wd`. -/
def Remains (s : Notify) (wd : Int) (a : List Path) : Prop :=
  ∃ n, s.ino.watch ⟨a, 0⟩ = some n ∧ (0 < s.taken wd → (n : Int) ≠ s.taken wd)

/-- The directory that becomes the current one if `ps` have been found. -/
def Notify.target (s : Notify) (ps : List Path) : List Path :=
  parts (ps.getLast?.getD (s.getwdir s.curdir))

/-- At a directory event that does not lead to `resetting`, every directory on the way from the
top one to the new current one is found at this event or remains watched. -/
def Unbroken (cfg : Config) (s : Notify) : Action → Prop
  | .gone _ => True
  | .event e w _ => Created w e s →
      ∀ r, dirs_check w pathMax 0 (.buf (s.avpath e)) cfg.sdirflag s.dirent = some r →
        stops w (found r) { leave e.wd s with dirent := r.2 } = false →
          ∀ a, parts cfg.topdir <+: a → a <+: s.target (found r) →
            (∃ p ∈ found r, parts p = a) ∨ Remains s e.wd a

section Steps
variable {cfg : Config} {topdir avpath p r : Path} {w w' : World} {s t : Notify} {e : Event}
  {ps : List Path}

theorem watch_enter (hw : Lasting w) (ht : enter w p r s = some t) (a : List Path) :
    (∃ n, t.ino.watch ⟨a, 0⟩ = some n) ↔ parts p = a ∨ ∃ n, s.ino.watch ⟨a, 0⟩ = some n := by
  obtain ⟨g, m, i, hg, hreg, rfl⟩ := enter_cases ht
  obtain rfl := hw _ _ hg
  change (∃ n, i.watch ⟨a, 0⟩ = some n) ↔ _
  rw [hreg.watch]
  by_cases ha : a = parts p
  · subst ha
    exact iff_of_true ⟨m, Function.update_self ..⟩ (.inl rfl)
  · have hne : (⟨a, 0⟩ : Dir) ≠ ⟨parts p, 0⟩ := by
      intro heq
      exact ha (congrArg Dir.path heq)
    rw [Function.update_of_ne hne]
    constructor
    · exact .inr
    · rintro (heq | h)
      · exact absurd heq.symm ha
      · exact h

/-- The loop that is not left adds the watches and makes the last directory the current one. -/
theorem enterAll_next (hw : Lasting w) {call : Option Path}
    (ht : enterAll w avpath ps s = .next t call) :
    (∀ a, (∃ n, t.ino.watch ⟨a, 0⟩ = some n) ↔
      (∃ p ∈ ps, parts p = a) ∨ ∃ n, s.ino.watch ⟨a, 0⟩ = some n) ∧
      parts (t.getwdir t.curdir) = s.target ps := by
  induction ps generalizing s with
  | nil =>
    cases ht
    exact ⟨fun a => by simp, rfl⟩
  | cons p ps ih =>
    unfold enterAll at ht
    split at ht
    · cases ht
    · split at ht
      · cases ht
      · rename_i u hu
        obtain ⟨hwatch, hcur⟩ := ih ht
        constructor
        · intro a
          rw [hwatch a, watch_enter hw hu, List.exists_mem_cons_iff]
          rw [or_assoc, or_left_comm]
        · rw [hcur]
          unfold Notify.target
          rw [getwdir_enter hu, List.getLast?_cons, Option.getD_some]
          cases ps.getLast? with
          | none => exact parts_fformat p
          | some q => rfl

theorem watch_leave (wd : Int) (a : List Path) :
    (∃ n, (leave wd s).ino.watch ⟨a, 0⟩ = some n) ↔ Remains s wd a := by
  apply exists_congr
  intro n
  exact leave_watch

/-- A restart mends the way. -/
theorem restart_allWatched (htop : EndsSlash topdir) (hw : Lasting w) {startdir : Option Path}
    (hlen : topdir.length + (startdir.getD []).length < pathMax)
    (ht : restart topdir w startdir s = some t) : AllWatched topdir t := by
  intro a htop' ha
  obtain ⟨hc, -, -⟩ := restart_spec htop hlen ht
  obtain ⟨g, n, hg, hn⟩ := hc.linked a htop' ha
  obtain rfl := hw _ _ hg
  exact ⟨n, hn⟩

theorem target_leave (wd : Int) (dirent : Nat → Path) :
    Notify.target { leave wd s with dirent := dirent } ps = s.target ps := by
  unfold Notify.target Notify.getwdir
  rw [leave_wdirs, leave_curdir]

theorem stops_of_next {call : Option Path} (h : enterAll w avpath ps s = .next t call) :
    stops w ps s = false := by
  have hgo := congrArg Outcome.goesOn h
  rw [enterAll_goesOn] at hgo
  exact (Bool.not_eq_true' _).mp hgo

theorem stops_of_resetting {a : Path} (h : enterAll w avpath ps s = .resetting t a) :
    stops w ps s = true := by
  have hgo := congrArg Outcome.goesOn h
  rw [enterAll_goesOn] at hgo
  exact (Bool.not_eq_false' _).mp hgo

/-- A directory event that goes on. -/
theorem next_allWatched (hw : Lasting w) {call : Option Path} {q : Nat × (Nat → Path)}
    (ht : enterAll w avpath (found q) { leave e.wd s with dirent := q.2 } = .next t call) :
    AllWatched topdir t ↔ ∀ a, parts topdir <+: a → a <+: s.target (found q) →
      (∃ p ∈ found q, parts p = a) ∨ Remains s e.wd a := by
  obtain ⟨hwatch, hcur⟩ := enterAll_next hw ht
  rw [target_leave] at hcur
  unfold AllWatched
  rw [hcur]
  apply forall_congr'
  intro a
  rw [hwatch a, ← watch_leave]

theorem step_allWatched (htop : EndsSlash cfg.topdir) (hlen : cfg.topdir.length < pathMax)
    {act : Action} (hs : AllWatched cfg.topdir s) (hd : Growing s act)
    (ht : step cfg s act = some t) : AllWatched cfg.topdir t ↔ Unbroken cfg s act := by
  cases act with
  | gone d => exact hd.elim
  | event e w w' =>
    obtain ⟨hw, hw', hpath⟩ := hd
    obtain ⟨hwd, ⟨call, hnext⟩ | ⟨u, avpath, hres, hrestart⟩⟩ := step_cases ht
    · by_cases hc : Created w e s
      · rw [handle_created hc] at hnext
        rcases dirEvent_cases hnext with ⟨-, hnever⟩ | ⟨q, hdirs, hq⟩
        · cases hnever
        rw [next_allWatched hw hq]
        constructor
        · intro h _ q' hq' _
          rw [hdirs] at hq'
          cases hq'
          exact h
        · intro h
          exact h hc q hdirs (stops_of_next hq)
      · obtain ⟨p, call', hnext'⟩ := handle_not_created cfg.sdirflag hc
        rw [hnext'] at hnext
        cases hnext
        exact iff_of_true hs (fun h => absurd h hc)
    · obtain ⟨hc, rfl⟩ := handle_resetting hres
      have hpath := hpath hc
      rw [handle_created hc] at hres
      rcases dirEvent_cases hres with ⟨-, hnever⟩ | ⟨q, hdirs, hq⟩
      · cases hnever
      refine iff_of_true ?_ ?_
      · apply restart_allWatched htop hw' _ hrestart
        rw [Option.getD_some, List.length_drop]
        omega
      · intro _ q' hq' hgo
        rw [hdirs] at hq'
        cases hq'
        rw [stops_of_resetting hq] at hgo
        cases hgo

end Steps

/-- Where directories are only created, the way from the top directory to the current one is
watched in every state of a run if and only if no directory event finds it broken or breaks it. -/
theorem ancestors_watched_iff (cfg : Config) (htop : EndsSlash cfg.topdir)
    (hlen : cfg.topdir.length + (cfg.startdir.getD []).length < pathMax) {w₀ : World}
    {s₀ s : Notify} {acts : List Action} (hw₀ : Lasting w₀) (hs₀ : start cfg w₀ = some s₀)
    (hgrow : Machine.Along (step cfg) Growing s₀ acts)
    (hrun : Machine.exec (step cfg) s₀ acts = some s) :
    Machine.Always (step cfg) (AllWatched cfg.topdir) s₀ acts ↔
      Machine.Along (step cfg) (Unbroken cfg) s₀ acts := by
  apply Machine.always_iff_along_within (I := fun _ => True) _ trivial _ hgrow hrun
  · intro s act t _ hs hd ht
    exact ⟨trivial, step_allWatched htop (by omega) hs hd ht⟩
  · exact restart_allWatched htop hw₀ hlen hs₀

/-- The path of the event fits, whatever it leads to. -/
def Fits (s : Notify) : Action → Prop
  | .gone _ => True
  | .event e _ _ => (s.avpath e).length < pathMax

instance (s : Notify) : (act : Action) → Decidable (Fits s act)
  | .gone _ => isTrue trivial
  | .event e _ _ => inferInstanceAs (Decidable ((s.avpath e).length < pathMax))

theorem growing_of_fits {cfg : Config} {s : Notify} {w : World} (hw : Lasting w) {es : List Event}
    (h : Machine.Along (step cfg) Fits s (es.map fun e => .event e w w)) :
    Machine.Along (step cfg) Growing s (es.map fun e => .event e w w) := by
  have hall : Machine.Along (step cfg) (fun _ act => ∃ e, act = Action.event e w w) s
      (es.map fun e => .event e w w) := by
    apply Machine.along_of_forall
    intro act hact
    obtain ⟨e, -, rfl⟩ := List.mem_map.mp hact
    exact ⟨e, rfl⟩
  apply (h.and hall).mono
  rintro s act ⟨hfits, e, rfl⟩
  exact ⟨hw, hw, fun _ => hfits⟩

instance (s : Notify) (wd : Int) (a : List Path) : Decidable (Remains s wd a) :=
  decidable_of_iff (∃ n ∈ s.ino.watch ⟨a, 0⟩, 0 < s.taken wd → (n : Int) ≠ s.taken wd) Iff.rfl

/-- Only the beginnings of the path have to be looked at. -/
instance decidableWay (s : Notify) (wd : Int) (ps : List Path) (top b : List Path) :
    Decidable (∀ a, top <+: a → a <+: b → (∃ p ∈ ps, parts p = a) ∨ Remains s wd a) :=
  decidable_of_iff (∀ a ∈ b.inits, top <+: a → (∃ p ∈ ps, parts p = a) ∨ Remains s wd a) <| by
    simp only [List.mem_inits]
    exact forall_congr' fun a => forall_comm

instance (cfg : Config) (s : Notify) : (act : Action) → Decidable (Unbroken cfg s act)
  | .gone _ => isTrue trivial
  | .event e w _ => inferInstanceAs (Decidable (Created w e s →
      ∀ r ∈ dirs_check w pathMax 0 (.buf (s.avpath e)) cfg.sdirflag s.dirent,
        stops w (found r) { leave e.wd s with dirent := r.2 } = false →
          ∀ a, parts cfg.topdir <+: a → a <+: s.target (found r) →
            (∃ p ∈ found r, parts p = a) ∨ Remains s e.wd a))

/-- Twelve directories are created at the top and another one in the last of them. The way to it is
watched, though the watch of the first directory is removed. -/
theorem ancestors_watched_iff_twelve :
    let cfg : Config := ⟨[slash], none, false⟩
    let w : World := ⟨fun _ => some true, fun _ => none, fun _ => some 0, fun _ => 0⟩
    let es : List Event := ((List.range 12).map fun i => ⟨1, inCreate, [97 + UInt8.ofNat i]⟩) ++
      [⟨13, inCreate, [120]⟩]
    let acts : List Action := es.map fun e => .event e w w
    ∃ s₀ s, start cfg w = some s₀ ∧ Machine.exec (step cfg) s₀ acts = some s ∧
      parts (s.getwdir s.curdir) = [[108], [120]] ∧ s.ino.watch ⟨[[97]], 0⟩ = none ∧
      Machine.Always (step cfg) (AllWatched cfg.topdir) s₀ acts := by
  intro cfg w es acts
  have hrun : (start cfg w).any (fun s₀ => decide (Machine.Along (step cfg) Fits s₀ acts ∧
      Machine.Along (step cfg) (Unbroken cfg) s₀ acts) &&
      (Machine.exec (step cfg) s₀ acts).any fun s =>
        decide (parts (s.getwdir s.curdir) = [[108], [120]] ∧ s.ino.watch ⟨[[97]], 0⟩ = none)) =
          true := by
    decide +kernel
  obtain ⟨s₀, hs₀, hrun⟩ := (Option.any_eq_true _ _).mp hrun
  obtain ⟨hacts, hrun⟩ := (Bool.and_eq_true _ _).mp hrun
  obtain ⟨hfits, hunbroken⟩ := of_decide_eq_true hacts
  obtain ⟨s, hs, hend⟩ := (Option.any_eq_true _ _).mp hrun
  obtain ⟨hcur, hwatch⟩ := of_decide_eq_true hend
  have hw : Lasting w := by
    intro a g hg
    exact (Option.some.inj hg).symm
  exact ⟨s₀, s, hs₀, hs, hcur, hwatch, (ancestors_watched_iff cfg ⟨[], rfl⟩ (by decide) hw hs₀
    (growing_of_fits hw hfits) hs).mpr hunbroken⟩

/-- `A` and `B` are created at the top, then ten directories in `A`: the eleventh call of `rm_watch`
removes the watch of `A`, which the first one has queued. -/
theorem parent_no_longer_watched :
    let cfg : Config := ⟨[slash], none, false⟩
    let w : World := ⟨fun _ => some true, fun _ => none, fun _ => some 0, fun _ => 0⟩
    let es : List Event := [⟨1, inCreate, [65]⟩, ⟨1, inCreate, [66]⟩] ++
      (List.range 10).map fun i => ⟨2, inCreate, [97 + UInt8.ofNat i]⟩
    let acts : List Action := es.map fun e => .event e w w
    ∃ s₀ s, start cfg w = some s₀ ∧ Machine.exec (step cfg) s₀ acts = some s ∧
      Machine.Along (step cfg) Growing s₀ acts ∧
      parts (s.getwdir s.curdir) = [[65], [106]] ∧ s.ino.watch ⟨[[65]], 0⟩ = none ∧
      ¬ AllWatched cfg.topdir s := by
  intro cfg w es acts
  have hrun : (start cfg w).any (fun s₀ => decide (Machine.Along (step cfg) Fits s₀ acts) &&
      (Machine.exec (step cfg) s₀ acts).any fun s =>
        decide (parts (s.getwdir s.curdir) = [[65], [106]] ∧ s.ino.watch ⟨[[65]], 0⟩ = none)) =
          true := by
    decide +kernel
  obtain ⟨s₀, hs₀, hrun⟩ := (Option.any_eq_true _ _).mp hrun
  obtain ⟨hfits, hrun⟩ := (Bool.and_eq_true _ _).mp hrun
  obtain ⟨s, hs, hend⟩ := (Option.any_eq_true _ _).mp hrun
  obtain ⟨hcur, hwatch⟩ := of_decide_eq_true hend
  have hw : Lasting w := by
    intro a g hg
    exact (Option.some.inj hg).symm
  refine ⟨s₀, s, hs₀, hs, growing_of_fits hw (of_decide_eq_true hfits), hcur, hwatch, ?_⟩
  intro hall
  obtain ⟨n, hn⟩ := hall [[65]] (List.nil_prefix) (by rw [hcur]; exact ⟨[[106]], rfl⟩)
  rw [hwatch] at hn
  cases hn

end JitDt.Inotifylib
