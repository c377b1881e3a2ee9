import JitDt.Lockfile.Waiting

/-!
# How often kwatcher can publish

Whoever goes on with a lock file in its hands can give it back, so the lock files that are live in
the wait-for graph are those that become free again. kwatcher can publish two more sets in some
continuation, and then any number of them, exactly if both are live, and a process can return from
`locked_lock` exactly if the one it waits for is.
-/

namespace JitDt.Lockfile.Sessions

set_option autoImplicit false

open Machine Relation
open WaitGraph (Calm Shares)

/-- kwatcher can publish `n` more sets. -/
def State.Publishes (s : State) (n : Nat) : Prop :=
  ∃ ls t, exec step s ls = some t ∧ s.published.length + n ≤ t.published.length

section Steps
variable {s t : State} {i : Nat} {f : Bool} {o : Option Owner} {c : Process}

/-! ## What is held can be given back -/

theorem KActs.keeps_live (ha : KActs s t f o) (h : Locked s) {l : Label}
    (hstep : Sessions.step s l = some t) {g : Bool} (hlive : s.waitGraph.Live g) :
    t.waitGraph.Live g := by
  obtain ⟨ht, hchange⟩ := h.step hstep
  refine hchange.keeps_live (fun r => (ha.kept_iff h r).mp) ?_ hlive
  intro p r hrun hown
  cases p with
  | kwatcher =>
    have hheld := ht.kwatcher hown
    simp only [State.waitGraph, State.waits]
    rw [if_neg]
    intro hlock
    rw [hlock] at hheld
    cases hheld
  | client j => exact (ha.waits_of_ne (p := .client j) (by simp)).trans hrun

abbrev Calmly : State → State → Prop := ReflTransGen (Calm Sessions.step State.waitGraph)

theorem Acts.calm (ha : Acts s t i f o c) (h : Locked s) (hkeep : o = some (.client i) → c.holds f)
    {l : Label} (hstep : Sessions.step s l = some t) : Calm Sessions.step State.waitGraph s t :=
  ⟨l, hstep, fun _ => ha.keeps_live h hkeep⟩

theorem KActs.calm (ha : KActs s t f o) (h : Locked s) {l : Label}
    (hstep : Sessions.step s l = some t) : Calm Sessions.step State.waitGraph s t :=
  ⟨l, hstep, fun _ => ha.keeps_live h hstep⟩

theorem Locked.calmly (h : Locked s) (hrun : Calmly s t) : Locked t := by
  induction hrun with
  | refl => exact h
  | tail _ hcalm ih =>
    obtain ⟨l, hl, _⟩ := hcalm
    exact (ih.step hl).1

theorem exists_fits : ∃ names, FitsTables names := ⟨[oneName], by decide⟩

/-- Process `i` has given `f` back and is between two calls, with the descriptors it had. -/
structure Finished (s t : State) (i : Nat) (f : Bool) : Prop where
  free : (t.file f).owner = none
  pc : (t.process i).pc = .idle
  lckfds : (t.process i).lckfds = (s.process i).lckfds

theorem Locked.finish_release (h : Locked s) (hheld : (s.process i).pc.holds = some f) {l : Label}
    (hstep : Sessions.step s l = some ((s.setOwner f none).setPc i .idle)) :
    ∃ t, Calmly s t ∧ Finished s t i f := by
  have ha := h.acts_release hheld
  refine ⟨_, .single (ha.calm h nofun hstep), (ha.owner f).trans (if_pos rfl), ?_, ?_⟩
  · rw [ha.process_self]
  · rw [ha.process_self]

theorem Locked.finish_nullified (h : Locked s) (hpc : (s.process i).pc = .nullified f) :
    ∃ t, Calmly s t ∧ Finished s t i f :=
  h.finish_release (by rw [hpc]; rfl) (l := .clientUnlock i) (by simp [Sessions.step, hpc])

theorem Locked.finish_failed (h : Locked s) (hpc : (s.process i).pc = .failed f) :
    ∃ t, Calmly s t ∧ Finished s t i f :=
  h.finish_release (by rw [hpc]; rfl) (l := .clientClose i) (by simp [Sessions.step, hpc])

/-- One step of the call, after which it holds `f` still. -/
theorem Acts.finish (ha : Acts s t i f (some (.client i)) c) (h : Locked s)
    (hc : c.pc.holds = some f) (hlck : c.lckfds = (s.process i).lckfds) {l : Label}
    (hstep : Sessions.step s l = some t) (hrest : ∃ u, Calmly t u ∧ Finished t u i f) :
    ∃ u, Calmly s u ∧ Finished s u i f := by
  obtain ⟨u, htu, hfin⟩ := hrest
  refine ⟨u, .head (ha.calm h (fun _ => .inl hc) hstep) htu, hfin.free, hfin.pc, ?_⟩
  rw [hfin.lckfds, ha.process_self, hlck]

theorem Locked.finish_got (h : Locked s) (hpc : (s.process i).pc = .got f) :
    ∃ t, Calmly s t ∧ Finished s t i f := by
  have ha := h.acts_nullify hpc
  refine ha.finish h rfl rfl (l := .clientNullify i) (by simp [Sessions.step, hpc]) ?_
  exact (ha.locked h).finish_nullified (by rw [ha.process_self])

/-- A call that holds its lock file can be brought to its end: a read may fail. -/
theorem Locked.finish (h : Locked s) (hheld : (s.process i).pc.holds = some f) :
    ∃ t, Calmly s t ∧ Finished s t i f := by
  cases hpc : (s.process i).pc with
  | idle => simp [hpc, Pc.holds] at hheld
  | waiting call => simp [hpc, Pc.holds] at hheld
  | failed g =>
    obtain rfl : g = f := by simpa [hpc, Pc.holds] using hheld
    exact h.finish_failed hpc
  | got g =>
    obtain rfl : g = f := by simpa [hpc, Pc.holds] using hheld
    exact h.finish_got hpc
  | nullified g =>
    obtain rfl : g = f := by simpa [hpc, Pc.holds] using hheld
    exact h.finish_nullified hpc
  | locked call g =>
    obtain rfl : g = f := by simpa [hpc, Pc.holds] using hheld
    cases call with
    | jitget =>
      obtain ⟨c, ha, hc, hlck, hnext⟩ := h.acts_readList hpc false
      refine ha.finish h hc hlck (l := .clientRead i false ⟨fun _ => -1, -1⟩)
        (by simp [Sessions.step, hpc]) ?_
      rcases hnext with hfailed | hgot
      · exact (ha.locked h).finish_failed (by rw [ha.process_self, hfailed])
      · exact (ha.locked h).finish_got (by rw [ha.process_self, hgot])
    | jitopen type =>
      obtain ⟨b, hb⟩ := @jitopen_refused (s.file g).content (s.process i).fpath false type
        ⟨fun _ => -1, -1⟩ (.inl rfl)
      have hopen : s.openFile i g type false ⟨fun _ => -1, -1⟩ =
          some (s.setProcess i { s.process i with fpath := b, pc := .failed g }) := by
        simp [State.openFile, hb]
      have ha : Acts s (s.setProcess i { s.process i with fpath := b, pc := .failed g }) i g
          (some (.client i)) { s.process i with fpath := b, pc := .failed g } :=
        h.acts_call rfl hheld rfl rfl (.inl ⟨rfl, rfl⟩) (.inl rfl) (h.owner_same hheld) rfl rfl rfl
      refine ha.finish h rfl rfl (l := .clientRead i false ⟨fun _ => -1, -1⟩)
        (by simp [Sessions.step, hpc, hopen]) ?_
      exact (ha.locked h).finish_failed (by rw [ha.process_self])

/-- An open descriptor can be closed, and its lock file is free then. -/
theorem Locked.frees_session (h : Locked s) (hpc : (s.process i).pc = .idle) {fd : Nat}
    (hfd : (s.process i).lckfds fd = some f) : ∃ t, Calmly s t ∧ (t.file f).owner = none := by
  have ha := h.acts_jitclose hpc hfd
  obtain ⟨t, hrun, hfin⟩ := (ha.locked h).finish_nullified (f := f) (by rw [ha.process_self])
  refine ⟨t, .head (ha.calm h (fun _ => .inl rfl) (l := .jitclose i fd) ?_) hrun, hfin.free⟩
  simp [Sessions.step, hpc, hfd]

theorem Locked.frees_written (h : Locked s) (hk : s.kpc = .written f) :
    ∃ t, Calmly s t ∧ (t.file f).owner = none := by
  have ha := kacts_unlock hk
  exact ⟨_, .single (ha.calm h (l := .unlock) (by simp [Sessions.step, hk])),
    (ha.owner f).trans (if_pos rfl)⟩

/-- Whoever goes on and has not lost the lock file can give it back. -/
theorem Locked.gives (h : Locked s) {p : Owner} (hown : (s.file f).owner = some p)
    (hrun : s.waits p = none) (hkept : ¬ s.Kept f) : ∃ t, Calmly s t ∧ (t.file f).owner = none := by
  have hholds : s.holds p f := by
    by_contra hnot
    exact hkept ⟨p, hown, hnot⟩
  cases p with
  | kwatcher =>
    cases hk : s.kpc with
    | lock => simp [State.holds, hk, KPc.holds] at hholds
    | written g =>
      obtain rfl : g = f := by simpa [State.holds, hk, KPc.holds] using hholds
      exact h.frees_written hk
    | held g =>
      obtain rfl : g = f := by simpa [State.holds, hk, KPc.holds] using hholds
      obtain ⟨names, hfit⟩ := exists_fits
      have ha := h.kacts_write hk names
      obtain ⟨t, hst, hfree⟩ := (ha.locked h).frees_written (f := g) rfl
      exact ⟨t, .head (ha.calm h (l := .write names) (by simp [Sessions.step, hk, hfit])) hst, hfree⟩
  | client i =>
    rcases hholds with hpc | ⟨fd, hfd⟩
    · obtain ⟨t, hst, hfin⟩ := h.finish hpc
      exact ⟨t, hst, hfin.free⟩
    · cases hpc : (s.process i).pc.holds with
      | none =>
        have hidle : (s.process i).pc = .idle := by
          cases hpc' : (s.process i).pc with
          | idle => rfl
          | waiting call => simp [State.waits, Process.waits, hpc'] at hrun
          | locked _ _ | failed _ | got _ | nullified _ => simp [hpc', Pc.holds] at hpc
        exact h.frees_session hidle hfd
      | some g =>
        -- the call holds the other file, and is finished first
        obtain ⟨t, hst, hfin⟩ := h.finish hpc
        have hfdt : (t.process i).lckfds fd = some f := by rw [hfin.lckfds, hfd]
        obtain ⟨u, htu, hfree⟩ := (h.calmly hst).frees_session hfin.pc hfdt
        exact ⟨u, hst.trans htu, hfree⟩

/-- A process that waits for a free lock file can take it. -/
theorem Locked.takes (h : Locked s) {p : Owner} (hwait : s.waits p = some f)
    (hfree : (s.file f).owner = none) :
    ∃ t, Calm Sessions.step State.waitGraph s t ∧ t.waits p = none := by
  cases p with
  | kwatcher =>
    simp only [State.waits] at hwait
    split at hwait
    · rename_i hpc
      obtain rfl := Option.some.inj hwait
      have ha := kacts_lock hpc hfree
      exact ⟨_, ha.calm h (l := .lock) (by simp [Sessions.step, hpc, hfree]), by simp [State.waits]⟩
    · cases hwait
  | client i =>
    simp only [State.waits, Process.waits] at hwait
    split at hwait
    · rename_i call hpc
      have hf := Option.some.inj hwait
      have ha := h.acts_lock hpc hf hfree
      refine ⟨_, ha.calm h (fun _ => .inl rfl) (l := .clientLock i) ?_, ha.waits_self⟩
      simp [Sessions.step, hpc, hf, hfree]
    · cases hwait

/-- The lock files are shared in the sense of the wait-for graph. -/
theorem shares : Shares Sessions.step State.waitGraph Locked where
  inv := fun h hstep => (h.step hstep).1
  change := fun h hstep => (h.step hstep).2
  take := fun h hwait hfree => h.takes hwait hfree
  give := fun h hown hrun hkept => h.gives hown hrun hkept

theorem exec_locked {content : Bool → List UInt8} {ls : List Label}
    (hrun : exec Sessions.step (init content) ls = some s) : Locked s :=
  exec_invariant (fun h hstep => (h.step hstep).1) (locked_init content) hrun

/-- A lock file is live exactly if some continuation frees it. -/
theorem free_again_iff {content : Bool → List UInt8} {ls : List Label}
    (hrun : exec Sessions.step (init content) ls = some s) (f : Bool) :
    s.waitGraph.Live f ↔ ∃ ms t, exec Sessions.step s ms = some t ∧ (t.file f).owner = none :=
  shares.live_iff (exec_locked hrun)

/-! ## The turns of kwatcher -/

/-- What a step does to the program of kwatcher. -/
inductive Turn (s t : State) : Prop where
  | other (hk : t.kpc = s.kpc) (htick : t.ticktack = s.ticktack) (hpub : t.published = s.published)
  | lock (hk : s.kpc = .lock) (hfree : (s.file s.ticktack).owner = none)
      (hheld : t.kpc = .held s.ticktack) (hpub : t.published = s.published)
  | write (f : Bool) (names : List CStr) (hk : s.kpc = .held f) (hwritten : t.kpc = .written f)
      (hpub : t.published = s.published ++ [names])
  | unlock (f : Bool) (hk : s.kpc = .written f) (hlock : t.kpc = .lock)
      (htick : t.ticktack = s.ticktack) (hpub : t.published = s.published)

theorem Acts.turn (ha : Acts s t i f o c) : Turn s t := .other ha.kpc ha.tick ha.published

theorem Locked.turn (h : Locked s) {l : Label} (hstep : Sessions.step s l = some t) : Turn s t := by
  cases step_cases hstep with
  | lock hpc hfree => exact .lock hpc hfree rfl rfl
  | write names f hk hfit => exact .write f names hk rfl rfl
  | unlock f hk => exact .unlock f hk rfl rfl rfl
  | call i c hpc => exact .other rfl rfl rfl
  | readList i ok f disk hpc =>
    obtain ⟨c, ha, _⟩ := h.acts_readList hpc ok
    exact ha.turn
  | openFile i type ok f disk t hpc hopen =>
    obtain ⟨c, ha, _⟩ := h.acts_openFile hpc hopen
    exact ha.turn
  | clientLock | clientClose | clientNullify | clientUnlock | jitclose => exact .other rfl rfl rfl

theorem Turn.published_le (h : Turn s t) : s.published.length ≤ t.published.length := by
  cases h with
  | other _ _ hpub | lock _ _ _ hpub | unlock _ _ _ _ hpub => rw [hpub]
  | write f names _ _ hpub =>
    rw [hpub, List.length_append]
    exact Nat.le_add_right _ _

theorem Locked.published_le (h : Locked s) (hrun : Calmly s t) :
    s.published.length ≤ t.published.length := by
  induction hrun with
  | refl => exact le_refl _
  | tail hsu hcalm ih =>
    obtain ⟨l, hl, _⟩ := hcalm
    exact ih.trans ((h.calmly hsu).turn hl).published_le

/-- kwatcher waits for the same file until it has it. -/
theorem Locked.waits_or_held (h : Locked s) (hk : s.kpc = .lock) (hrun : Calmly s t) :
    (t.kpc = .lock ∧ t.ticktack = s.ticktack) ∨ ∃ u g, Calmly s u ∧ u.kpc = .held g := by
  induction hrun with
  | refl => exact .inl ⟨hk, rfl⟩
  | @tail u v hsu hcalm ih =>
    rcases ih with ⟨hku, htick⟩ | hheld
    · obtain ⟨l, hl, _⟩ := id hcalm
      cases (h.calmly hsu).turn hl with
      | other hk' htick' _ => exact .inl ⟨hk'.trans hku, htick'.trans htick⟩
      | lock _ _ hheld _ => exact .inr ⟨v, _, hsu.tail hcalm, hheld⟩
      | write f names hk' _ _ =>
        rw [hku] at hk'
        cases hk'
      | unlock f hk' _ _ _ =>
        rw [hku] at hk'
        cases hk'
    · exact .inr hheld

theorem Locked.gets_held_of_lock (h : Locked s) (hk : s.kpc = .lock)
    (hlive : ∀ g, s.waitGraph.Live g) : ∃ t g, Calmly s t ∧ t.kpc = .held g := by
  obtain ⟨t, hst, hfree⟩ := shares.frees h (hlive s.ticktack)
  rcases h.waits_or_held hk hst with ⟨hkt, htick⟩ | hheld
  · rw [← htick] at hfree
    have ha := kacts_lock hkt hfree
    have hfree' : (t.file t.ticktack).owner = none := hfree
    exact ⟨_, _, hst.tail (ha.calm (h.calmly hst) (l := .lock)
      (by simp [Sessions.step, hkt, hfree'])), rfl⟩
  · exact hheld

/-- If both lock files are live kwatcher gets the next one. -/
theorem Locked.gets_held (h : Locked s) (hlive : ∀ g, s.waitGraph.Live g) :
    ∃ t g, Calmly s t ∧ t.kpc = .held g := by
  cases hk : s.kpc with
  | lock => exact h.gets_held_of_lock hk hlive
  | held g => exact ⟨s, g, .refl, hk⟩
  | written g =>
    have ha := kacts_unlock hk
    have hcalm := ha.calm h (l := .unlock) (by simp [Sessions.step, hk])
    obtain ⟨_, _, hkeep⟩ := id hcalm
    obtain ⟨t, f, hrun, hheld⟩ := (ha.locked h).gets_held_of_lock rfl fun f => hkeep f (hlive f)
    exact ⟨t, f, .head hcalm hrun, hheld⟩

theorem Locked.publishes (h : Locked s) (hlive : ∀ g, s.waitGraph.Live g) (n : Nat) :
    ∃ t, Calmly s t ∧ s.published.length + n ≤ t.published.length := by
  induction n generalizing s with
  | zero => exact ⟨s, .refl, le_refl _⟩
  | succ n ih =>
    obtain ⟨u, g, hsu, hk⟩ := h.gets_held hlive
    have hu := h.calmly hsu
    obtain ⟨names, hfit⟩ := exists_fits
    have ha := hu.kacts_write hk names
    have hcalm := ha.calm hu (l := .write names) (by simp [Sessions.step, hk, hfit])
    obtain ⟨_, _, hkeep⟩ := id hcalm
    obtain ⟨t, hrun, hlen⟩ := ih (ha.locked hu) fun f => hkeep f (Shares.calm_live hsu (hlive f))
    refine ⟨t, hsu.trans (.head hcalm hrun), ?_⟩
    have hle := h.published_le hsu
    rw [List.length_append, List.length_singleton] at hlen
    omega

/-- What kwatcher can still publish when it never gets `f` again. -/
def State.room (s : State) (f : Bool) : Nat :=
  match s.kpc with
  | .lock => if s.ticktack = f then 0 else 1
  | .held _ => 1
  | .written _ => 0

theorem State.room_le (s : State) (f : Bool) : s.room f ≤ 1 := by
  unfold State.room
  split
  · split <;> omega
  · exact le_refl 1
  · exact Nat.zero_le 1

theorem Locked.room_step (h : Locked s) (hdead : ¬ s.waitGraph.Live f) (hturn : Turn s t) :
    t.published.length + t.room f ≤ s.published.length + s.room f := by
  cases hturn with
  | other hk htick hpub =>
    unfold State.room
    rw [hk, htick, hpub]
  | lock hk hfree hheld hpub =>
    have hne : s.ticktack ≠ f := by
      rintro rfl
      exact hdead (.free hfree)
    simp [State.room, hk, hheld, hpub, hne]
  | write g names hk hwritten hpub => simp [State.room, hk, hwritten, hpub]
  | unlock g hk hlock htick hpub =>
    have hheld : s.holds .kwatcher g := by simp [State.holds, hk, KPc.holds]
    have hne : g ≠ f := by
      rintro rfl
      refine hdead (.running (h.owner hheld) ?_ ?_)
      · exact h.not_kept hheld
      · simp [State.waitGraph, State.waits, hk]
    have htick' : t.ticktack = f := by
      rw [htick, h.tick hheld]
      exact (Bool.eq_not.mpr (Ne.symm hne)).symm
    simp [State.room, hk, hlock, hpub, htick']

/-- Once a lock file is not live, kwatcher publishes at most one more set. -/
theorem Locked.publishes_once_more (h : Locked s) (hdead : ¬ s.waitGraph.Live f) {ls : List Label}
    (hrun : exec Sessions.step s ls = some t) : t.published.length ≤ s.published.length + 1 := by
  have hroom : Locked t ∧ ¬ t.waitGraph.Live f ∧
      t.published.length + t.room f ≤ s.published.length + s.room f := by
    refine exec_invariant (I := fun t => Locked t ∧ ¬ t.waitGraph.Live f ∧
      t.published.length + t.room f ≤ s.published.length + s.room f) ?_ ⟨h, hdead, le_refl _⟩ hrun
    rintro u l v ⟨hu, hdu, hle⟩ hl
    obtain ⟨hv, hchange⟩ := hu.step hl
    exact ⟨hv, fun hlive => hdu (hchange.live hlive), (hu.room_step hdu (hu.turn hl)).trans hle⟩
  have hle := s.room_le f
  omega

/-- kwatcher can publish two more sets, or any greater number, exactly if no lock file has come to
a process that will not give it back: one that lost it in a failed `_jitopen`, or that waits for
itself, be it through the other file. -/
theorem publishes_further_iff {content : Bool → List UInt8} {ls : List Label}
    (hrun : exec Sessions.step (init content) ls = some s) (n : Nat) :
    s.Publishes (n + 2) ↔ ∀ f, s.waitGraph.Live f := by
  have h := exec_locked hrun
  constructor
  · rintro ⟨ms, t, hmore, hlen⟩ f
    by_contra hdead
    have hle := h.publishes_once_more hdead hmore
    omega
  · intro hlive
    obtain ⟨t, hcalm, hlen⟩ := h.publishes hlive (n + 2)
    obtain ⟨ms, hms⟩ := Shares.exec_of_calm hcalm
    exact ⟨ms, t, hms, hlen⟩

/-- A process opens the files of its three types and closes none: it gets a file of each of two
sets, and waits for the lock file of the first one. -/
def openThree : List Label :=
  [.lock, .write [oneName, oneName, oneName], .unlock, .call 0 (.jitopen 0), .clientLock 0,
    .clientRead 0 true ⟨fun _ => 4, -1⟩, .lock, .write [oneName, oneName, oneName], .unlock,
    .call 0 (.jitopen 1), .clientLock 0, .clientRead 0 true ⟨fun _ => 6, -1⟩, .call 0 (.jitopen 2)]

/-- It waits for itself. -/
theorem not_live_openThree (hrun : exec Sessions.step (init fun _ => []) openThree = some s) :
    ¬ s.waitGraph.Live false := by
  obtain rfl := Option.some.inj hrun
  refine WaitGraph.not_live_of_closed (D := fun f => f = false) ?_ rfl
  rintro f rfl
  exact ⟨.client 0, rfl, .inr ⟨false, rfl, rfl⟩⟩

theorem publishes_further_iff_openThree :
    ∃ s, exec Sessions.step (init fun _ => []) openThree = some s ∧ ¬ s.Kept false ∧
      ¬ s.Publishes 2 := by
  refine ⟨_, rfl, ?_, fun h => ?_⟩
  · rintro ⟨p, hp, hnot⟩
    obtain rfl := Option.some.inj hp
    exact hnot (.inr ⟨4, rfl⟩)
  · exact not_live_openThree rfl ((@publishes_further_iff _ (fun _ => []) openThree rfl 0).mp h false)

/-- Whoever waits in `locked_lock` can return from it exactly if the lock file is live. -/
theorem locked_lock_returns_iff {content : Bool → List UInt8} {ls : List Label}
    (hrun : exec Sessions.step (init content) ls = some s) {p : Owner} (hwait : s.waits p = some f) :
    (∃ ms t, exec Sessions.step s ms = some t ∧ t.waits p = none) ↔ s.waitGraph.Live f :=
  shares.served_iff (exec_locked hrun) hwait

theorem locked_lock_returns_iff_openThree :
    ∃ s, exec Sessions.step (init fun _ => []) openThree = some s ∧
      s.waits (.client 0) = some false ∧
      ¬ ∃ ms t, exec Sessions.step s ms = some t ∧ t.waits (.client 0) = none := by
  refine ⟨_, rfl, rfl, fun h => not_live_openThree rfl ?_⟩
  exact (@locked_lock_returns_iff _ _ (fun _ => []) openThree rfl _ rfl).mp h

/-! ## Processes that close before they call -/

/-- The process that calls has no file open, and `_jitopen` finds the file whose name it read. -/
def Careful (s : State) : Label → Prop
  | .call i _ => ∀ fd, (s.process i).lckfds fd = none
  | .clientRead i ok disk => ∀ type f, (s.process i).pc = .locked (.jitopen type) f →
      (_jitopen (s.file f).content ok (s.process i).fpath type disk).locked = true →
      0 ≤ (_jitopen (s.file f).content ok (s.process i).fpath type disk).fd
  | _ => True

theorem Locked.careful_live (h : Locked s) (hlive : ∀ g, s.waitGraph.Live g) {l : Label}
    (hl : Careful s l) (hstep : Sessions.step s l = some t) (g : Bool) : t.waitGraph.Live g := by
  cases step_cases hstep with
  | lock hpc hfree => exact (kacts_lock hpc hfree).keeps_live h hstep (hlive g)
  | write names f hk hfit => exact (h.kacts_write hk names).keeps_live h hstep (hlive g)
  | unlock f hk => exact (kacts_unlock hk).keeps_live h hstep (hlive g)
  | call i c hpc =>
    refine (call_change hpc c).keeps_live ?_ ?_ (hlive g)
    · rintro r ⟨p, hp, hnot⟩
      exact ⟨p, hp, fun hs => hnot ((call_holds hpc c p r).mpr hs)⟩
    · intro p r hrun hown
      have hheld : s.holds p r := by
        by_contra hnot
        exact (hlive r).not_lost ⟨p, hown, hnot⟩
      cases p with
      | kwatcher => exact hrun
      | client j =>
        have hj : j ≠ i := by
          rintro rfl
          rcases hheld with hheld | ⟨fd, hfd⟩
          · rw [hpc] at hheld
            cases hheld
          · rw [hl fd] at hfd
            cases hfd
        simpa [State.waitGraph, State.waits, State.setPc, State.setProcess, hj] using hrun
  | clientLock i c f hpc hf hfree =>
    exact (h.acts_lock hpc hf hfree).keeps_live h (fun _ => .inl rfl) (hlive g)
  | readList i ok f disk hpc =>
    obtain ⟨c, ha, hc, _⟩ := h.acts_readList hpc ok
    exact ha.keeps_live h (fun _ => .inl hc) (hlive g)
  | openFile i type ok f disk t hpc hopen =>
    obtain ⟨c, ha, hc⟩ := h.acts_openFile hpc hopen
    refine ha.keeps_live h (fun _ => hc.resolve_right ?_) (hlive g)
    rintro ⟨hlocked, hneg⟩
    have hfound := hl type f hpc hlocked
    omega
  | clientClose i f hpc =>
    exact (h.acts_release (i := i) (f := f) (by rw [hpc]; rfl)).keeps_live h (fun ho => by cases ho) (hlive g)
  | clientNullify i f hpc =>
    exact (h.acts_nullify hpc).keeps_live h (fun _ => .inl rfl) (hlive g)
  | clientUnlock i f hpc =>
    exact (h.acts_release (i := i) (f := f) (by rw [hpc]; rfl)).keeps_live h (fun ho => by cases ho) (hlive g)
  | jitclose i fd f hpc hfd =>
    exact (h.acts_jitclose hpc hfd).keeps_live h (fun _ => .inl rfl) (hlive g)

theorem exec_careful_live {content : Bool → List UInt8} {ls : List Label}
    (hcareful : Along Sessions.step Careful (init content) ls)
    (hrun : exec Sessions.step (init content) ls = some s) : Locked s ∧ ∀ g, s.waitGraph.Live g := by
  refine exec_invariant_along (I := fun s => Locked s ∧ ∀ g, s.waitGraph.Live g) ?_
    ⟨locked_init content, fun g => .free rfl⟩ hcareful hrun
  rintro s l t ⟨h, hlive⟩ hl hstep
  exact ⟨(h.step hstep).1, h.careful_live hlive hl hstep⟩

/-- In every run of such processes, whatever their order, kwatcher can go on. -/
theorem careful_publishes {content : Bool → List UInt8} {ls : List Label}
    (hcareful : Along Sessions.step Careful (init content) ls)
    (hrun : exec Sessions.step (init content) ls = some s) (n : Nat) : s.Publishes n := by
  obtain ⟨h, hlive⟩ := exec_careful_live hcareful hrun
  obtain ⟨t, hcalm, hlen⟩ := h.publishes hlive n
  obtain ⟨ms, hms⟩ := Shares.exec_of_calm hcalm
  exact ⟨ms, t, hms, hlen⟩

/-- A file is opened and closed between two calls. -/
def openOne : List Label :=
  [.lock, .write [oneName], .unlock, .call 0 (.jitopen 0), .clientLock 0,
    .clientRead 0 true ⟨fun _ => 4, -1⟩, .jitclose 0 4, .clientUnlock 0, .call 0 .jitget]

theorem careful_openOne : Along Sessions.step Careful (init fun _ => []) openOne := by
  refine ⟨trivial, trivial, trivial, fun _ => rfl, trivial, ?_, trivial, trivial, ?_, trivial⟩
  · rintro type f hpc _
    obtain ⟨⟨⟩, ⟨⟩⟩ := Pc.locked.inj hpc
    exact Int.natCast_nonneg 4
  · intro fd
    show Function.update (Function.update (fun _ => none) 4 (some false)) 4 none fd = none
    rw [Function.update_idem, Function.update_eq_self]

theorem careful_publishes_openOne :
    ∃ s, exec Sessions.step (init fun _ => []) openOne = some s ∧ s.obtained = [.file 0 [97]] ∧
      s.Publishes 5 :=
  ⟨_, rfl, rfl, @careful_publishes _ (fun _ => []) openOne careful_openOne rfl 5⟩

/-- Nor does anybody wait in `locked_lock` without a way on. -/
theorem careful_returns {content : Bool → List UInt8} {ls : List Label}
    (hcareful : Along Sessions.step Careful (init content) ls)
    (hrun : exec Sessions.step (init content) ls = some s) {p : Owner} (hwait : s.waits p = some f) :
    ∃ ms t, exec Sessions.step s ms = some t ∧ t.waits p = none := by
  obtain ⟨h, hlive⟩ := exec_careful_live hcareful hrun
  exact (shares.served_iff h hwait).mpr (hlive f)

theorem careful_returns_openOne :
    ∃ s, exec Sessions.step (init fun _ => []) openOne = some s ∧ s.waits (.client 0) = some true ∧
      ∃ ms t, exec Sessions.step s ms = some t ∧ t.waits (.client 0) = none :=
  ⟨_, rfl, rfl, @careful_returns _ _ (fun _ => []) openOne careful_openOne rfl _ rfl⟩

end Steps

end JitDt.Lockfile.Sessions
