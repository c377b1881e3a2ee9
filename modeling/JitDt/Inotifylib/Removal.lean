import JitDt.Inotifylib.Paths

/-!
# Which watches are removed

`rm_watch` postpones the removal of a watch by a queue of descriptors, and the queue outlives
the inotify instance. A restart creates a new instance and hands the queued numbers to it:
`reset_watch` removes them there, and does not even take them out of the queue.
-/

namespace JitDt.Inotifylib

set_option autoImplicit false

open Machine
open PathName (parts)

/-- The descriptors that `reset_watch` passes to `inotify_rm_watch`. -/
def resetCalls (s : Notify) : List Int :=
  (List.range maxKeepdir).filterMap fun k => if 0 < s.qrmdir k then some (s.qrmdir k) else none

/-- The descriptor that `rm_watch` passes to `inotify_rm_watch`. -/
def takenCalls (s : Notify) : List Int :=
  if 0 < s.qrmdir s.curqrmd then [s.qrmdir s.curqrmd] else []

theorem reset_watch_calls (s : Notify) :
    (reset_watch s).ino = (resetCalls s).foldl Inotify.rm_watch s.ino := by
  unfold reset_watch resetCalls
  rw [List.foldl_filterMap]
  simp only
  congr 1
  funext i k
  split <;> rfl

theorem rm_watch_calls (wd : Int) (s : Notify) :
    (rm_watch wd s).ino = (takenCalls s).foldl Inotify.rm_watch s.ino := by
  unfold rm_watch takenCalls
  simp only
  split <;> rfl

/-- The static data, and the descriptors passed to `rm_watch` since the present instance was
created. -/
structure Watching where
  notify : Notify
  queued : List Int

/-- The instance has handed the descriptor out, and it was queued since then. -/
def Owned (i : Inotify) (queued : List Int) (wd : Int) : Prop :=
  (∃ (n : Nat) (d : Dir), wd = n ∧ i.dirOf n = some d) ∧ wd ∈ queued

/-- The event makes `mynotify` leave the current directory. -/
def Leaving (w : World) (e : Event) (s : Notify) : Prop := Created w e s ∧ e.wd ≠ s.curdir

instance (w : World) (e : Event) (s : Notify) : Decidable (Leaving w e s) :=
  inferInstanceAs (Decidable (_ ∧ _))

def Watching.left (g : Watching) (w : World) (e : Event) : List Int :=
  if Leaving w e g.notify then g.queued ++ [g.notify.curdir] else g.queued

def Watching.queuedAfter (cfg : Config) (g : Watching) : Action → List Int
  | .gone _ => g.queued
  | .event e w _ =>
    match handle cfg.sdirflag w e g.notify with
    | .resetting _ _ => []
    | _ => g.left w e

def Watching.step (cfg : Config) (g : Watching) (a : Action) : Option Watching :=
  (Inotifylib.step cfg g.notify a).map fun s => ⟨s, g.queuedAfter cfg a⟩

/-- Every descriptor the event passes to `inotify_rm_watch` is owned: the one that `rm_watch`
takes by the present instance, those of `reset_watch` by the one just created. -/
def RemovesOwned (cfg : Config) (g : Watching) : Action → Prop
  | .gone _ => True
  | .event e w _ =>
    (Leaving w e g.notify → ∀ wd ∈ takenCalls g.notify, Owned g.notify.ino g.queued wd) ∧
      ∀ s avpath, handle cfg.sdirflag w e g.notify = .resetting s avpath →
        ∀ wd ∈ resetCalls s, Owned .init [] wd

/-- The watches are set up again only while nothing is queued, not even by this event. -/
def ResetsUnqueued (cfg : Config) (g : Watching) : Action → Prop
  | .gone _ => True
  | .event e w _ => ∀ s avpath, handle cfg.sdirflag w e g.notify = .resetting s avpath →
      e.wd = g.notify.curdir ∧ ∀ k < maxKeepdir, g.notify.qrmdir k ≤ 0

/-! ## Descriptors that were handed out -/

/-- Every watch of the instance has a descriptor that was handed out. -/
structure Handed (i : Inotify) : Prop where
  pos : 1 ≤ i.next
  watched : ∀ {d n}, i.watch d = some n → 1 ≤ n ∧ (i.dirOf n).isSome

def CurHanded (s : Notify) : Prop :=
  ∃ n : Nat, s.curdir = n ∧ 1 ≤ n ∧ (s.ino.dirOf n).isSome

/-- The instance goes on to hand out descriptors, and the queue stays. -/
structure Extends (s t : Notify) : Prop where
  dirOf : ∀ {n}, (s.ino.dirOf n).isSome → (t.ino.dirOf n).isSome
  qrmdir : t.qrmdir = s.qrmdir
  curqrmd : t.curqrmd = s.curqrmd

theorem Extends.refl (s : Notify) : Extends s s := ⟨id, rfl, rfl⟩

theorem Extends.trans {s t u : Notify} (h : Extends s t) (h' : Extends t u) : Extends s u :=
  ⟨fun hn => h'.dirOf (h.dirOf hn), h'.qrmdir.trans h.qrmdir, h'.curqrmd.trans h.curqrmd⟩

theorem Owned.mono {i j : Inotify} {q r : List Int} {wd : Int} (h : Owned i q wd)
    (hdir : ∀ {n}, (i.dirOf n).isSome → (j.dirOf n).isSome) (hq : q ⊆ r) : Owned j r wd := by
  obtain ⟨⟨n, d, rfl, hd⟩, hmem⟩ := h
  obtain ⟨d', hd'⟩ := Option.isSome_iff_exists.mp (hdir (Option.isSome_iff_exists.mpr ⟨d, hd⟩))
  exact ⟨⟨n, d', rfl, hd'⟩, hq hmem⟩

section Enter
variable {w : World} {p r avpath topdir sp : Path} {ps : List Path} {s t : Notify} {k : Nat}
  {startdir : Option Path}

theorem enter_extends (ht : enter w p r s = some t) : Extends s t := by
  obtain ⟨g, n, i, -, hreg, rfl⟩ := enter_cases ht
  cases hreg with
  | old hold => exact ⟨id, rfl, rfl⟩
  | new hnew =>
    refine ⟨?_, rfl, rfl⟩
    intro m hm
    by_cases hmn : m = s.ino.next
    · subst hmn
      simp
    · simpa [Function.update_of_ne hmn] using hm

theorem enter_handed (h : Handed s.ino) (ht : enter w p r s = some t) :
    Handed t.ino ∧ CurHanded t := by
  have he := enter_extends ht
  obtain ⟨g, n, i, -, hreg, rfl⟩ := enter_cases ht
  cases hreg with
  | old hold => exact ⟨h, n, rfl, h.watched hold⟩
  | new hnew =>
    refine ⟨⟨Nat.le_add_left 1 _, ?_⟩, s.ino.next, rfl, h.pos, by simp⟩
    intro d m hm
    by_cases hd : d = ⟨parts p, g⟩
    · subst hd
      obtain rfl : s.ino.next = m := by simpa using hm
      exact ⟨h.pos, by simp⟩
    · obtain ⟨hpos, hsome⟩ := h.watched (by simpa [Function.update_of_ne hd] using hm)
      exact ⟨hpos, he.dirOf hsome⟩

theorem enterAll_extends : Extends s (enterAll w avpath ps s).state := by
  induction ps generalizing s with
  | nil => exact .refl s
  | cons p ps ih =>
    unfold enterAll
    split
    · exact .refl s
    · split
      · exact .refl s
      · rename_i u hu
        exact (enter_extends hu).trans ih

theorem enterAll_handed (h : Handed s.ino) (hcur : CurHanded s) :
    Handed (enterAll w avpath ps s).state.ino ∧ CurHanded (enterAll w avpath ps s).state := by
  induction ps generalizing s with
  | nil => exact ⟨h, hcur⟩
  | cons p ps ih =>
    unfold enterAll
    split
    · exact ⟨h, hcur⟩
    · split
      · exact ⟨h, hcur⟩
      · rename_i u hu
        obtain ⟨hh, hc⟩ := enter_handed h hu
        exact ih hh hc

theorem descend_handed (h : Handed s.ino) (hcur : CurHanded s) (ht : descend w k sp s = some t) :
    Handed t.ino ∧ CurHanded t ∧ Extends s t := by
  induction k generalizing sp s with
  | zero => cases ht
  | succ k ih =>
    unfold descend at ht
    split at ht
    · cases ht
      exact ⟨h, hcur, .refl _⟩
    · obtain ⟨u, hu, ht⟩ := Option.bind_eq_some_iff.mp ht
      obtain ⟨hh, hc⟩ := enter_handed h hu
      obtain ⟨hh', hc', he⟩ := ih hh hc ht
      exact ⟨hh', hc', (enter_extends hu).trans he⟩

/-- A restart leaves the queue as it was. -/
theorem restart_handed (ht : restart topdir w startdir s = some t) :
    Handed t.ino ∧ CurHanded t ∧ t.qrmdir = s.qrmdir ∧ t.curqrmd = 0 := by
  obtain ⟨u, hu, ht⟩ := Option.bind_eq_some_iff.mp ht
  have hinit : Handed (reset_watch { s with ino := .init }).ino := by
    rw [reset_watch_init]
    refine ⟨Nat.le_refl 1, ?_⟩
    intro d n hn
    cases hn
  obtain ⟨hh, hc⟩ := enter_handed hinit hu
  have he := enter_extends hu
  cases startdir with
  | none =>
    cases ht
    exact ⟨hh, hc, he.qrmdir, he.curqrmd⟩
  | some sp =>
    obtain ⟨hh', hc', he'⟩ := descend_handed hh hc ht
    exact ⟨hh', hc', (he.trans he').qrmdir, (he.trans he').curqrmd⟩

end Enter

/-! ## The queue -/

structure QueueOwned (g : Watching) : Prop where
  handed : Handed g.notify.ino
  cur : CurHanded g.notify
  slot : g.notify.curqrmd < maxKeepdir
  queue : ∀ k < maxKeepdir, 0 < g.notify.qrmdir k →
    Owned g.notify.ino g.queued (g.notify.qrmdir k)

section Step
variable {cfg : Config} {g : Watching} {a : Action} {e : Event} {w : World} {s : Notify}

theorem leave_of_leaving (h : Leaving w e s) : leave e.wd s = rm_watch s.curdir s := if_pos h.2

/-- The static data when the directories are entered: the queue has taken the descriptor of a
directory that is left. -/
theorem QueueOwned.leave (h : QueueOwned g) (hc : Created w e g.notify) :
    QueueOwned ⟨leave e.wd g.notify, g.left w e⟩ := by
  by_cases hne : e.wd ≠ g.notify.curdir
  · have hleft : g.left w e = g.queued ++ [g.notify.curdir] := if_pos ⟨hc, hne⟩
    have hqrm : (Inotifylib.leave e.wd g.notify).qrmdir =
        Function.update g.notify.qrmdir g.notify.curqrmd g.notify.curdir := by
      rw [leave_of_leaving ⟨hc, hne⟩]
      rfl
    have hcurq : (Inotifylib.leave e.wd g.notify).curqrmd =
        (g.notify.curqrmd + 1) % maxKeepdir := by
      rw [leave_of_leaving ⟨hc, hne⟩]
      rfl
    refine ⟨⟨?_, ?_⟩, ?_, ?_, ?_⟩
    · rw [leave_next]
      exact h.handed.pos
    · intro d n hn
      rw [leave_dirOf]
      exact h.handed.watched (leave_watch.mp hn).1
    · obtain ⟨n, hn, hpos, hsome⟩ := h.cur
      exact ⟨n, (leave_curdir e.wd g.notify).trans hn, hpos, by rw [leave_dirOf]; exact hsome⟩
    · rw [hcurq]
      exact Nat.mod_lt _ (by decide)
    · intro k hk hpos
      rw [hqrm] at hpos ⊢
      rw [hleft]
      by_cases hkc : k = g.notify.curqrmd
      · subst hkc
        obtain ⟨n, hn, _, hsome⟩ := h.cur
        obtain ⟨d, hd⟩ := Option.isSome_iff_exists.mp hsome
        rw [Function.update_self]
        refine ⟨⟨n, d, hn, ?_⟩, by simp⟩
        rw [leave_dirOf]
        exact hd
      · rw [Function.update_of_ne hkc] at hpos ⊢
        apply (h.queue k hk hpos).mono
        · intro m hm
          rw [leave_dirOf]
          exact hm
        · exact List.subset_append_left _ _
  · have hleft : g.left w e = g.queued := if_neg fun hl => hne hl.2
    have hsame : Inotifylib.leave e.wd g.notify = g.notify := if_neg hne
    rw [hsame, hleft]
    exact h

theorem QueueOwned.extend {q : List Int} {t : Notify} (h : QueueOwned ⟨s, q⟩) (hh : Handed t.ino)
    (hc : CurHanded t) (he : Extends s t) : QueueOwned ⟨t, q⟩ := by
  refine ⟨hh, hc, he.curqrmd.trans_lt h.slot, ?_⟩
  intro k hk hpos
  change 0 < t.qrmdir k at hpos
  change Owned t.ino q (t.qrmdir k)
  rw [he.qrmdir] at hpos ⊢
  exact (h.queue k hk hpos).mono he.dirOf (List.Subset.refl q)

/-- Whatever comes of an event, up to the restart. -/
theorem QueueOwned.handle (h : QueueOwned g) :
    QueueOwned ⟨(handle cfg.sdirflag w e g.notify).state, g.left w e⟩ := by
  by_cases hc : Created w e g.notify
  · rw [handle_created hc]
    have hleave := h.leave hc
    rcases @dirEvent_cases w g.notify (g.notify.avpath e) cfg.sdirflag e.wd _ rfl with
      ⟨_, ho⟩ | ⟨q, _, ho⟩
    · rw [ho]
      exact hleave
    · rw [← ho]
      obtain ⟨hh, hcur⟩ := @enterAll_handed w (g.notify.avpath e) (found q)
        { Inotifylib.leave e.wd g.notify with dirent := q.2 } hleave.handed hleave.cur
      have he := @enterAll_extends w (g.notify.avpath e) (found q)
        { Inotifylib.leave e.wd g.notify with dirent := q.2 }
      exact QueueOwned.extend hleave hh hcur ⟨he.dirOf, he.qrmdir, he.curqrmd⟩
  · obtain ⟨p, call, ho⟩ := handle_not_created cfg.sdirflag hc
    have hleft : g.left w e = g.queued := if_neg fun hl => hc hl.1
    rw [ho, hleft]
    exact ⟨h.handed, h.cur, h.slot, h.queue⟩

/-- Only a created directory leads to a restart, and the queue is then as it was left. -/
theorem resetting_queue {avpath : Path}
    (h : Inotifylib.handle cfg.sdirflag w e g.notify = .resetting s avpath) :
    Created w e g.notify ∧ s.qrmdir = (Inotifylib.leave e.wd g.notify).qrmdir := by
  by_cases hc : Created w e g.notify
  · refine ⟨hc, ?_⟩
    rw [handle_created hc] at h
    rcases dirEvent_cases h with ⟨_, ho⟩ | ⟨q, _, ho⟩
    · cases ho
    · have he := @enterAll_extends w (g.notify.avpath e) (found q)
        { Inotifylib.leave e.wd g.notify with dirent := q.2 }
      rw [ho] at he
      exact he.qrmdir
  · obtain ⟨p, call, ho⟩ := handle_not_created cfg.sdirflag hc
    rw [ho] at h
    cases h

theorem mem_resetCalls {wd : Int} :
    wd ∈ resetCalls s ↔ ∃ k < maxKeepdir, s.qrmdir k = wd ∧ 0 < wd := by
  unfold resetCalls
  simp only [List.mem_filterMap, List.mem_range, Option.ite_none_right_eq_some, Option.some.injEq]
  constructor
  · rintro ⟨k, hk, hpos, rfl⟩
    exact ⟨k, hk, rfl, hpos⟩
  · rintro ⟨k, hk, rfl, hpos⟩
    exact ⟨k, hk, hpos, rfl⟩

/-- A new instance has handed nothing out. -/
theorem not_owned_init (wd : Int) : ¬ Owned .init [] wd := by
  rintro ⟨_, hmem⟩
  cases hmem

/-- What the removals of one event require. -/
theorem removesOwned_iff (h : QueueOwned g) : RemovesOwned cfg g a ↔ ResetsUnqueued cfg g a := by
  cases a with
  | gone d => exact Iff.rfl
  | event e w w' =>
    constructor
    · rintro ⟨_, hreset⟩ s avpath hs
      obtain ⟨hc, hq⟩ := resetting_queue hs
      have hnone : ∀ k < maxKeepdir, ¬ 0 < s.qrmdir k := fun k hk hpos =>
        not_owned_init _ (hreset s avpath hs _ (mem_resetCalls.mpr ⟨k, hk, rfl, hpos⟩))
      have hcur : e.wd = g.notify.curdir := by
        by_contra hne
        -- the current directory has just been queued
        apply hnone _ h.slot
        rw [hq, leave_of_leaving ⟨hc, hne⟩]
        obtain ⟨n, hn, hpos, _⟩ := h.cur
        have hself : (rm_watch g.notify.curdir g.notify).qrmdir g.notify.curqrmd =
            g.notify.curdir := Function.update_self ..
        rw [hself, hn]
        omega
      refine ⟨hcur, fun k hk => ?_⟩
      have hk := hnone k hk
      have hsame : Inotifylib.leave e.wd g.notify = g.notify := if_neg (not_not.mpr hcur)
      rw [hq, hsame] at hk
      omega
    · intro hunq
      constructor
      · intro _ wd hwd
        unfold takenCalls at hwd
        split at hwd
        · rename_i hpos
          rw [List.mem_singleton.mp hwd]
          exact h.queue _ h.slot hpos
        · cases hwd
      · intro s avpath hs wd hwd
        obtain ⟨hcur, hempty⟩ := hunq s avpath hs
        obtain ⟨k, hk, rfl, hpos⟩ := mem_resetCalls.mp hwd
        have hsame : Inotifylib.leave e.wd g.notify = g.notify := if_neg (not_not.mpr hcur)
        rw [(resetting_queue hs).2, hsame] at hpos
        have := hempty k hk
        omega

theorem QueueOwned.step {t : Watching} (h : QueueOwned g) (hunq : ResetsUnqueued cfg g a)
    (ht : g.step cfg a = some t) : QueueOwned t := by
  obtain ⟨u, hu, rfl⟩ := Option.map_eq_some_iff.mp ht
  cases a with
  | gone d =>
    cases hu
    refine ⟨⟨h.handed.pos, ?_⟩, h.cur, h.slot, h.queue⟩
    intro d' n hn
    apply h.handed.watched (d := d')
    by_cases hd : d' = d
    · subst hd
      simp [Inotify.gone] at hn
    · simpa [Inotify.gone, Function.update_of_ne hd] using hn
  | event e w w' =>
    obtain ⟨_, ⟨call, hn⟩ | ⟨s, avpath, hs, hr⟩⟩ := step_cases hu
    · have hq : g.queuedAfter cfg (.event e w w') = g.left w e := by
        simp only [Watching.queuedAfter, hn]
      have hstate := @QueueOwned.handle cfg g e w h
      rw [hn] at hstate
      rw [hq]
      exact hstate
    · obtain ⟨hh, hc, hqrm, hslot⟩ := restart_handed hr
      obtain ⟨hcur, hempty⟩ := hunq s avpath hs
      have hsame : Inotifylib.leave e.wd g.notify = g.notify := if_neg (not_not.mpr hcur)
      refine ⟨hh, hc, hslot.trans_lt (by decide), ?_⟩
      intro k hk hpos
      change 0 < u.qrmdir k at hpos
      rw [hqrm, (resetting_queue hs).2, hsame] at hpos
      have := hempty k hk
      omega

end Step

def Watching.start (cfg : Config) (w : World) : Option Watching :=
  (Inotifylib.start cfg w).map fun s => ⟨s, []⟩

theorem queueOwned_start {cfg : Config} {w : World} {g : Watching}
    (h : Watching.start cfg w = some g) : QueueOwned g := by
  obtain ⟨s, hs, rfl⟩ := Option.map_eq_some_iff.mp h
  obtain ⟨hh, hc, hqrm, hslot⟩ := restart_handed hs
  refine ⟨hh, hc, hslot.trans_lt (by decide), ?_⟩
  intro k _ hpos
  change 0 < s.qrmdir k at hpos
  rw [hqrm] at hpos
  cases hpos

theorem QueueOwned.along_iff {cfg : Config} {g : Watching} (h : QueueOwned g)
    (acts : List Action) : Along (Watching.step cfg) (RemovesOwned cfg) g acts ↔
      Along (Watching.step cfg) (ResetsUnqueued cfg) g acts :=
  along_iff_along (fun hI hD hstep => hI.step hD hstep) (fun hI => removesOwned_iff hI) h

/-- The queue does not disturb a run. -/
theorem exec_watching {cfg : Config} {g : Watching} {s : Notify} {acts : List Action}
    (h : exec (Inotifylib.step cfg) g.notify acts = some s) :
    ∃ t, exec (Watching.step cfg) g acts = some t ∧ t.notify = s := by
  induction acts generalizing g with
  | nil =>
    obtain rfl : g.notify = s := Option.some.inj h
    exact ⟨g, rfl, rfl⟩
  | cons a acts ih =>
    obtain ⟨u, hu, hrest⟩ := exec_cons_iff.mp h
    have hstep : g.step cfg a = some ⟨u, g.queuedAfter cfg a⟩ := by
      unfold Watching.step
      rw [hu]
      rfl
    obtain ⟨t, ht, hts⟩ := @ih ⟨u, g.queuedAfter cfg a⟩ hrest
    exact ⟨t, exec_cons_iff.mpr ⟨_, hstep, ht⟩, hts⟩

def firstWatching : Watching := ⟨firstNotify, []⟩

theorem watching_newDir : Watching.start oneLevel (newDir 0) = some firstWatching := rfl

theorem resetsUnqueued_newDirs {n : Nat} (hn : n < maxDirs) :
    Along (Watching.step oneLevel) (ResetsUnqueued oneLevel) firstWatching (newDirs n) := by
  induction n with
  | zero => exact along_nil
  | succ n ih =>
    obtain ⟨s, hs, hgrown, _⟩ := exec_newDirs grown_firstNotify (n := n) (by omega)
    obtain ⟨t, ht, rfl⟩ := @exec_watching oneLevel firstWatching _ _ hs
    obtain ⟨u, hu, _⟩ := hgrown.handle hn
    rw [newDirs_succ]
    refine (along_snoc_iff ht).mpr ⟨ih (by omega), fun v avpath hv => ?_⟩
    rw [hu] at hv
    cases hv

end JitDt.Inotifylib
