import JitDt.Lib.WaitGraph
import JitDt.Lockfile.Deaths
import JitDt.Lockfile.Sessions

/-!
# Who waits for whom at the lock files

A process that holds a lock file and calls again may wait for the other file, or for the one it
holds, and a failed `_jitopen` keeps its lock file without a way to give it back. The steps of
kwatcher and the processes are steps of their wait-for graph.
-/

namespace JitDt.Lockfile.Sessions

set_option autoImplicit false

open Machine
open WaitGraph (Change)

/-! ## The graph -/

def Pc.holds : Pc → Option Bool
  | .idle => none
  | .waiting _ => none
  | .locked _ f => some f
  | .failed f => some f
  | .got f => some f
  | .nullified f => some f

def Process.holds (c : Process) (f : Bool) : Prop := c.pc.holds = some f ∨ ∃ fd, c.lckfds fd = some f

def Process.waits (c : Process) : Option Bool :=
  match c.pc with
  | .waiting _ => some c.ticktack
  | _ => none

namespace State

/-- The process still knows the descriptor of the lock file. -/
def holds (s : State) : Owner → Bool → Prop
  | .kwatcher, f => s.kpc.holds = some f
  | .client i, f => (s.process i).holds f

def waits (s : State) : Owner → Option Bool
  | .kwatcher => if s.kpc = .lock then some s.ticktack else none
  | .client i => (s.process i).waits

/-- The lock is kept without a way to give it back. -/
def Kept (s : State) (f : Bool) : Prop := ∃ o, (s.file f).owner = some o ∧ ¬ s.holds o f

def waitGraph (s : State) : WaitGraph Owner Bool where
  owner := fun f => (s.file f).owner
  waits := s.waits
  lost := s.Kept
  owner_of_lost := by
    rintro f ⟨o, ho, _⟩ hnone
    rw [ho] at hnone
    cases hnone

end State

/-- A lock belongs to the process that knows its descriptor, and there is one descriptor of it. -/
structure Locked (s : State) : Prop where
  owner : ∀ {o f}, s.holds o f → (s.file f).owner = some o
  kwatcher : ∀ {f}, (s.file f).owner = some .kwatcher → s.kpc.holds = some f
  tick : ∀ {f}, s.kpc.holds = some f → s.ticktack = !f
  call : ∀ {i f} fd, (s.process i).pc.holds = some f → (s.process i).lckfds fd ≠ some f
  fds : ∀ {i f fd fd'}, (s.process i).lckfds fd = some f → (s.process i).lckfds fd' = some f →
    fd = fd'

theorem locked_init (content : Bool → List UInt8) : Locked (init content) where
  owner := by
    intro o f h
    cases o with
    | kwatcher => cases h
    | client i => rcases h with h | ⟨fd, h⟩ <;> cases h
  kwatcher := nofun
  tick := nofun
  call := fun _ _ => nofun
  fds := nofun

theorem Locked.not_kept {s : State} (h : Locked s) {p : Owner} {f : Bool} (hp : s.holds p f) :
    ¬ s.Kept f := by
  rintro ⟨q, hq, hnot⟩
  rw [h.owner hp] at hq
  obtain rfl := Option.some.inj hq
  exact hnot hp

/-! ## What a process does to a lock file -/

/-- Process `i` becomes `c`: it takes the lock file `f` it waited for, or holds `f` and keeps it,
gives it back, or loses it. Nothing else changes. -/
structure Acts (s t : State) (i : Nat) (f : Bool) (o : Option Owner) (c : Process) : Prop where
  owner : ∀ g, (t.file g).owner = if g = f then o else (s.file g).owner
  process : t.process = Function.update s.process i c
  kpc : t.kpc = s.kpc
  tick : t.ticktack = s.ticktack
  published : t.published = s.published
  running : c.waits = none
  same : ∀ g, g ≠ f → (c.holds g ↔ (s.process i).holds g)
  call : ∀ {g} fd, c.pc.holds = some g → c.lckfds fd ≠ some g
  fds : ∀ {g fd fd'}, c.lckfds fd = some g → c.lckfds fd' = some g → fd = fd'
  after : (o = some (.client i)) ∨ (o = none ∧ ¬ c.holds f)
  before : ((s.process i).waits = some f ∧ (s.file f).owner = none ∧ o = some (.client i) ∧
    c.holds f) ∨ ((s.process i).waits = none ∧ (s.process i).holds f)

section Acts
variable {s t : State} {i : Nat} {f : Bool} {o : Option Owner} {c : Process}

theorem Acts.owner_before (ha : Acts s t i f o c) (h : Locked s) {p : Owner}
    (hp : (s.file f).owner = some p) : p = .client i := by
  rcases ha.before with ⟨_, hfree, _, _⟩ | ⟨_, hholds⟩
  · rw [hfree] at hp
    cases hp
  · have hown := h.owner (o := .client i) hholds
    rw [hp] at hown
    exact Option.some.inj hown

theorem Acts.owner_after (ha : Acts s t i f o c) {p : Owner} (hp : (t.file f).owner = some p) :
    p = .client i := by
  rw [ha.owner f, if_pos rfl] at hp
  rcases ha.after with ho | ⟨ho, _⟩
  · rw [ho] at hp
    exact (Option.some.inj hp).symm
  · rw [ho] at hp
    cases hp

theorem Acts.owner_of_ne (ha : Acts s t i f o c) {g : Bool} (hg : g ≠ f) :
    (t.file g).owner = (s.file g).owner := by
  rw [ha.owner, if_neg hg]

theorem Acts.process_of_ne (ha : Acts s t i f o c) {j : Nat} (hj : j ≠ i) :
    t.process j = s.process j := by
  rw [ha.process, Function.update_of_ne hj]

theorem Acts.process_self (ha : Acts s t i f o c) : t.process i = c := by
  rw [ha.process, Function.update_self]

theorem Acts.holds_of_ne (ha : Acts s t i f o c) {p : Owner} {g : Bool}
    (h : p ≠ .client i ∨ g ≠ f) : t.holds p g ↔ s.holds p g := by
  cases p with
  | kwatcher => simp only [State.holds, ha.kpc]
  | client j =>
    by_cases hj : j = i
    · subst hj
      simp only [State.holds, ha.process_self]
      exact ha.same g (h.resolve_left (by simp))
    · simp only [State.holds, ha.process_of_ne hj]

theorem Acts.locked (ha : Acts s t i f o c) (h : Locked s) : Locked t where
  owner := by
    intro p g hp
    by_cases hg : g = f
    · subst hg
      by_cases hpi : p = .client i
      · subst hpi
        rw [ha.owner, if_pos rfl]
        rcases ha.after with ho | ⟨_, hnot⟩
        · exact ho
        · simp only [State.holds, ha.process_self] at hp
          exact absurd hp hnot
      · have hown := h.owner ((ha.holds_of_ne (.inl hpi)).mp hp)
        exact absurd (ha.owner_before h hown) hpi
    · rw [ha.owner_of_ne hg]
      exact h.owner ((ha.holds_of_ne (.inr hg)).mp hp)
  kwatcher := by
    intro g hg
    by_cases hgf : g = f
    · subst hgf
      cases ha.owner_after hg
    · rw [ha.owner_of_ne hgf] at hg
      rw [ha.kpc]
      exact h.kwatcher hg
  tick := by
    intro g hg
    rw [ha.kpc] at hg
    rw [ha.tick]
    exact h.tick hg
  call := by
    intro j g fd hg
    by_cases hj : j = i
    · subst hj
      rw [ha.process_self] at hg ⊢
      exact ha.call fd hg
    · rw [ha.process_of_ne hj] at hg ⊢
      exact h.call fd hg
  fds := by
    intro j g fd fd' hfd hfd'
    by_cases hj : j = i
    · subst hj
      rw [ha.process_self] at hfd hfd'
      exact ha.fds hfd hfd'
    · rw [ha.process_of_ne hj] at hfd hfd'
      exact h.fds hfd hfd'

theorem Acts.waits_of_ne (ha : Acts s t i f o c) {p : Owner} (hp : p ≠ .client i) :
    t.waits p = s.waits p := by
  cases p with
  | kwatcher => simp only [State.waits, ha.kpc, ha.tick]
  | client j =>
    have hj : j ≠ i := by
      rintro rfl
      exact hp rfl
    simp only [State.waits, ha.process_of_ne hj]

theorem Acts.waits_self (ha : Acts s t i f o c) : t.waits (.client i) = none := by
  simp only [State.waits, ha.process_self]
  exact ha.running

theorem Acts.kept_of_ne (ha : Acts s t i f o c) {g : Bool} (hg : g ≠ f) : t.Kept g ↔ s.Kept g := by
  unfold State.Kept
  rw [ha.owner_of_ne hg]
  exact exists_congr fun p => and_congr_right fun _ => not_congr (ha.holds_of_ne (.inr hg))

theorem Acts.kept_self (ha : Acts s t i f o c) :
    t.Kept f ↔ o = some (.client i) ∧ ¬ c.holds f := by
  unfold State.Kept
  rw [ha.owner, if_pos rfl]
  constructor
  · rintro ⟨p, rfl, hp⟩
    obtain rfl : p = .client i := by
      rcases ha.after with ho | ⟨ho, _⟩
      · exact Option.some.inj ho
      · cases ho
    simp only [State.holds, ha.process_self] at hp
    exact ⟨rfl, hp⟩
  · rintro ⟨rfl, hnot⟩
    refine ⟨.client i, rfl, ?_⟩
    simp only [State.holds, ha.process_self]
    exact hnot

theorem Acts.not_kept_before (ha : Acts s t i f o c) (h : Locked s) : ¬ s.Kept f := by
  rcases ha.before with ⟨_, hfree, _, _⟩ | ⟨_, hholds⟩
  · rintro ⟨p, hp, _⟩
    rw [hfree] at hp
    cases hp
  · exact h.not_kept (p := .client i) hholds

theorem Acts.change (ha : Acts s t i f o c) (h : Locked s) : Change s.waitGraph t.waitGraph := by
  have hlost : (o = some (.client i) → c.holds f) → ∀ g, t.Kept g ↔ s.Kept g := by
    intro hkeep g
    by_cases hg : g = f
    · subst hg
      refine iff_of_false ?_ (ha.not_kept_before h)
      rw [ha.kept_self]
      exact fun hk => hk.2 (hkeep hk.1)
    · exact ha.kept_of_ne hg
  rcases ha.before with ⟨hwait, hfree, ho, hholds⟩ | ⟨hrun, hheld⟩
  · exact .take (.client i) f hwait hfree ((ha.owner f).trans (by rw [if_pos rfl, ho]))
      (fun g hg => ha.owner_of_ne hg) ha.waits_self (fun p hp => ha.waits_of_ne hp)
      (hlost fun _ => hholds)
  · have hown := h.owner (o := .client i) hheld
    have hwaits : ∀ p, t.waits p = s.waits p := by
      intro p
      by_cases hp : p = .client i
      · rw [hp, ha.waits_self]
        exact hrun.symm
      · exact ha.waits_of_ne hp
    rcases ha.after with ho | ⟨ho, hnot⟩
    · have howner : ∀ g, (t.file g).owner = (s.file g).owner := by
        intro g
        by_cases hg : g = f
        · rw [ha.owner, if_pos hg, ho, hg, hown]
        · exact ha.owner_of_ne hg
      by_cases hc : c.holds f
      · exact .stay howner hwaits (hlost fun _ => hc)
      · refine .lose (.client i) f hown hrun howner hwaits fun g => ?_
        by_cases hg : g = f
        · subst hg
          exact iff_of_true (ha.kept_self.mpr ⟨ho, hc⟩) (.inl rfl)
        · exact (ha.kept_of_ne hg).trans ⟨.inr, fun hk => hk.resolve_left hg⟩
    · refine .give (.client i) f hown (ha.not_kept_before h) hrun
        ((ha.owner f).trans (by rw [if_pos rfl, ho])) (fun g hg => ha.owner_of_ne hg)
        (fun p _ => hwaits p) (hlost fun ho' => ?_)
      rw [ho] at ho'
      cases ho'

/-- What is not lost stays live. -/
theorem Acts.keeps_live (ha : Acts s t i f o c) (h : Locked s)
    (hkeep : o = some (.client i) → c.holds f) {g : Bool} (hlive : s.waitGraph.Live g) :
    t.waitGraph.Live g := by
  refine (ha.change h).keeps_live ?_ ?_ hlive
  · intro r hr
    by_cases hrf : r = f
    · subst hrf
      obtain ⟨ho, hnot⟩ := ha.kept_self.mp hr
      exact absurd (hkeep ho) hnot
    · exact (ha.kept_of_ne hrf).mp hr
  · intro p r hrun _
    by_cases hp : p = .client i
    · rw [hp]
      exact ha.waits_self
    · exact (ha.waits_of_ne hp).trans hrun

end Acts

/-! ## The steps -/

section Steps
variable {s t : State} {i : Nat} {f : Bool} {o : Option Owner} {c : Process}

theorem setOwner_owner (s : State) (f g : Bool) (o : Option Owner) :
    ((s.setOwner f o).file g).owner = if g = f then o else (s.file g).owner := by
  by_cases h : g = f
  · subst h
    simp [State.setOwner, State.setFile]
  · simp [State.setOwner, State.setFile, h]

theorem setContent_owner (s : State) (f g : Bool) (x : List UInt8) :
    ((s.setContent f x).file g).owner = (s.file g).owner := by
  by_cases h : g = f
  · subst h
    simp [State.setContent, State.setFile]
  · simp [State.setContent, State.setFile, h]

theorem waits_of_holds (h : c.pc.holds = some f) : c.waits = none := by
  unfold Process.waits
  split
  · rename_i hpc
    rw [hpc] at h
    cases h
  · rfl

theorem Locked.owner_of_pc (h : Locked s) (hpc : (s.process i).pc.holds = some f) :
    (s.file f).owner = some (.client i) :=
  h.owner (o := .client i) (.inl hpc)

/-- A step within a call that leaves the owner of the other file and the open descriptors. -/
theorem Locked.acts_call (h : Locked s) (hproc : t.process = Function.update s.process i c)
    (hpc : (s.process i).pc.holds = some f) (hlck : c.lckfds = (s.process i).lckfds)
    (hrun : c.waits = none)
    (hc : c.pc.holds = some f ∧ o = some (.client i) ∨ c.pc.holds = none)
    (hafter : o = some (.client i) ∨ o = none)
    (howner : ∀ g, (t.file g).owner = if g = f then o else (s.file g).owner)
    (hkpc : t.kpc = s.kpc) (htick : t.ticktack = s.ticktack) (hpub : t.published = s.published) :
    Acts s t i f o c where
  owner := howner
  process := hproc
  kpc := hkpc
  tick := htick
  published := hpub
  running := hrun
  same := by
    intro g hg
    unfold Process.holds
    rw [hlck, hpc]
    rcases hc with ⟨hc, _⟩ | hc
    · rw [hc]
    · simp [hc, Ne.symm hg]
  call := by
    intro g fd hg
    rcases hc with ⟨hc, _⟩ | hc
    · rw [hc] at hg
      rw [hlck, ← hg]
      exact h.call fd hpc
    · rw [hc] at hg
      cases hg
  fds := by
    intro g fd fd' hfd hfd'
    rw [hlck] at hfd hfd'
    exact h.fds hfd hfd'
  after := by
    rcases hafter with ho | ho
    · exact .inl ho
    · refine .inr ⟨ho, ?_⟩
      rcases hc with ⟨_, ho'⟩ | hc
      · rw [ho] at ho'
        cases ho'
      · rintro (hheld | ⟨fd, hfd⟩)
        · rw [hc] at hheld
          cases hheld
        · rw [hlck] at hfd
          exact h.call fd hpc hfd
  before := .inr ⟨waits_of_holds hpc, .inl hpc⟩

theorem Locked.owner_same (h : Locked s) (hpc : (s.process i).pc.holds = some f) (g : Bool) :
    (s.file g).owner = if g = f then some (.client i) else (s.file g).owner := by
  by_cases hg : g = f
  · rw [if_pos hg, hg, h.owner_of_pc hpc]
  · rw [if_neg hg]

theorem Locked.acts_lock (h : Locked s) {call : Call} (hpc : (s.process i).pc = .waiting call)
    (hf : (s.process i).ticktack = f) (hfree : (s.file f).owner = none) :
    Acts s ((s.setOwner f (some (.client i))).setProcess i
      { s.process i with ticktack := !f, pc := .locked call f }) i f (some (.client i))
      { s.process i with ticktack := !f, pc := .locked call f } where
  owner := fun g => setOwner_owner s f g _
  process := rfl
  kpc := rfl
  tick := rfl
  published := rfl
  running := rfl
  same := by
    intro g hg
    simp [Process.holds, Pc.holds, hpc, Ne.symm hg]
  call := by
    intro g fd hg hfd
    obtain rfl : f = g := Option.some.inj hg
    have hown := h.owner (o := .client i) (.inr ⟨fd, hfd⟩)
    rw [hfree] at hown
    cases hown
  fds := h.fds
  after := .inl rfl
  before := .inl ⟨by simp [Process.waits, hpc, hf], hfree, rfl, .inl rfl⟩

theorem Locked.acts_readList (h : Locked s) (hpc : (s.process i).pc = .locked .jitget f) (ok : Bool) :
    ∃ c, Acts s (s.readList i f ok) i f (some (.client i)) c ∧ c.pc.holds = some f ∧
      c.lckfds = (s.process i).lckfds ∧ (c.pc = .failed f ∨ c.pc = .got f) := by
  have hheld : (s.process i).pc.holds = some f := by rw [hpc]; rfl
  unfold State.readList
  split
  · exact ⟨_, h.acts_call rfl hheld rfl rfl (.inl ⟨rfl, rfl⟩) (.inl rfl) (h.owner_same hheld) rfl rfl rfl,
      rfl, rfl, .inl rfl⟩
  · exact ⟨_, h.acts_call rfl hheld rfl rfl (.inl ⟨rfl, rfl⟩) (.inl rfl) (h.owner_same hheld) rfl rfl rfl,
      rfl, rfl, .inr rfl⟩

/-- A new descriptor does not matter to the other lock file. -/
theorem exists_update_iff {m : Nat → Option Bool} {fd : Nat} (hfd : m fd = none) {g : Bool}
    (hg : f ≠ g) : (∃ fd', Function.update m fd (some f) fd' = some g) ↔ ∃ fd', m fd' = some g := by
  refine exists_congr fun fd' => ?_
  by_cases hfd' : fd' = fd
  · subst hfd'
    simp [hfd, hg]
  · rw [Function.update_of_ne hfd']

theorem update_injective {m : Nat → Option Bool} {fd : Nat} (hnew : ∀ fd', m fd' ≠ some f)
    (hinj : ∀ {g fd₁ fd₂}, m fd₁ = some g → m fd₂ = some g → fd₁ = fd₂) {g : Bool} {fd₁ fd₂ : Nat}
    (h₁ : Function.update m fd (some f) fd₁ = some g)
    (h₂ : Function.update m fd (some f) fd₂ = some g) : fd₁ = fd₂ := by
  have hold : ∀ {fd'}, fd' ≠ fd → Function.update m fd (some f) fd' ≠ some f := by
    intro fd' hne
    rw [Function.update_of_ne hne]
    exact hnew fd'
  by_cases h₁' : fd₁ = fd
  · subst h₁'
    rw [Function.update_self] at h₁
    by_contra hne
    exact hold (Ne.symm hne) (h₂.trans h₁.symm)
  · by_cases h₂' : fd₂ = fd
    · subst h₂'
      rw [Function.update_self] at h₂
      exact absurd (h₁.trans h₂.symm) (hold h₁')
    · rw [Function.update_of_ne h₁'] at h₁
      rw [Function.update_of_ne h₂'] at h₂
      exact hinj h₁ h₂

/-- `_jitopen` returns a descriptor that was not in use, and keeps the lock file under it. -/
theorem Locked.acts_session (h : Locked s) (hproc : t.process = Function.update s.process i c)
    (hpc : (s.process i).pc.holds = some f) (hc : c.pc = .idle) {fd : Nat}
    (hfresh : (s.process i).lckfds fd = none)
    (hlck : c.lckfds = Function.update (s.process i).lckfds fd (some f)) (hfile : t.file = s.file)
    (hkpc : t.kpc = s.kpc) (htick : t.ticktack = s.ticktack) (hpub : t.published = s.published) :
    Acts s t i f (some (.client i)) c where
  owner := by
    rw [hfile]
    exact h.owner_same hpc
  process := hproc
  kpc := hkpc
  tick := htick
  published := hpub
  running := by simp [Process.waits, hc]
  same := by
    intro g hg
    unfold Process.holds
    rw [hpc, hc, hlck]
    simp only [Pc.holds, Ne.symm hg, Option.some_inj, reduceCtorEq, false_or]
    exact exists_update_iff hfresh (Ne.symm hg)
  call := by
    intro g fd hg
    rw [hc] at hg
    cases hg
  fds := by
    intro g fd₁ fd₂ h₁ h₂
    rw [hlck] at h₁ h₂
    exact update_injective (fun fd => h.call fd hpc) (fun hfd hfd' => h.fds hfd hfd') h₁ h₂
  after := .inl rfl
  before := .inr ⟨waits_of_holds hpc, .inl hpc⟩

/-- `_jitopen` goes on to close the lock file, or returns with it. -/
theorem Locked.acts_openFile (h : Locked s) {type : Nat} {ok : Bool} {disk : Disk}
    (hpc : (s.process i).pc = .locked (.jitopen type) f)
    (hopen : s.openFile i f type ok disk = some t) : ∃ c, Acts s t i f (some (.client i)) c ∧
      (c.holds f ∨ (_jitopen (s.file f).content ok (s.process i).fpath type disk).locked = true ∧
        (_jitopen (s.file f).content ok (s.process i).fpath type disk).fd < 0) := by
  have hheld : (s.process i).pc.holds = some f := by rw [hpc]; rfl
  unfold State.openFile at hopen
  simp only at hopen
  split at hopen
  · rw [← Option.some.inj hopen]
    exact ⟨_, h.acts_call rfl hheld rfl rfl (.inl ⟨rfl, rfl⟩) (.inl rfl) (h.owner_same hheld) rfl rfl
      rfl, .inl (.inl rfl)⟩
  · rename_i hlocked
    split at hopen
    · rename_i hneg
      rw [← Option.some.inj hopen]
      exact ⟨_, h.acts_call rfl hheld rfl rfl (.inr rfl) (.inl rfl) (h.owner_same hheld) rfl rfl rfl,
        .inr ⟨Bool.eq_true_of_not_eq_false hlocked, hneg⟩⟩
    · split at hopen
      · cases hopen
      · rename_i hfresh
        rw [not_or, not_not] at hfresh
        rw [← Option.some.inj hopen]
        exact ⟨_, h.acts_session rfl hheld rfl hfresh.2 rfl rfl rfl rfl rfl,
          .inl (.inr ⟨_, Function.update_self ..⟩)⟩

theorem Locked.acts_release (h : Locked s) (hheld : (s.process i).pc.holds = some f) :
    Acts s ((s.setOwner f none).setPc i .idle) i f none { s.process i with pc := .idle } :=
  h.acts_call rfl hheld rfl rfl (.inr rfl) (.inr rfl) (fun g => setOwner_owner s f g none) rfl rfl rfl

theorem Locked.acts_nullify (h : Locked s) (hpc : (s.process i).pc = .got f) :
    Acts s ((s.setContent f (nullify (s.file f).content)).setPc i (.nullified f)) i f
      (some (.client i)) { s.process i with pc := .nullified f } := by
  have hheld : (s.process i).pc.holds = some f := by rw [hpc]; rfl
  exact h.acts_call rfl hheld rfl rfl (.inl ⟨rfl, rfl⟩) (.inl rfl)
    (fun g => (setContent_owner s f g _).trans (h.owner_same hheld g)) rfl rfl rfl

theorem Locked.acts_jitclose (h : Locked s) {fd : Nat} (hpc : (s.process i).pc = .idle)
    (hfd : (s.process i).lckfds fd = some f) :
    Acts s ((s.setContent f (nullify (s.file f).content)).setProcess i
      { s.process i with
        pc := .nullified f
        lckfds := Function.update (s.process i).lckfds fd none }) i f (some (.client i))
      { s.process i with
        pc := .nullified f
        lckfds := Function.update (s.process i).lckfds fd none } where
  owner := by
    intro g
    refine (setContent_owner s f g _).trans ?_
    by_cases hg : g = f
    · rw [if_pos hg, hg]
      exact h.owner (o := .client i) (.inr ⟨fd, hfd⟩)
    · rw [if_neg hg]
  process := rfl
  kpc := rfl
  tick := rfl
  published := rfl
  running := rfl
  same := by
    intro g hg
    unfold Process.holds
    simp only [hpc, Pc.holds, Option.some_inj, Ne.symm hg, reduceCtorEq, false_or]
    refine exists_congr fun fd' => ?_
    by_cases hfd' : fd' = fd
    · subst hfd'
      simp [hfd, Ne.symm hg]
    · rw [Function.update_of_ne hfd']
  call := by
    intro g fd' hg hfd'
    obtain rfl : f = g := Option.some.inj hg
    by_cases hne : fd' = fd
    · simp [hne] at hfd'
    · simp only [Function.update_of_ne hne] at hfd'
      exact hne (h.fds hfd' hfd)
  fds := by
    intro g fd₁ fd₂ h₁ h₂
    by_cases hne₁ : fd₁ = fd
    · simp [hne₁] at h₁
    · by_cases hne₂ : fd₂ = fd
      · simp [hne₂] at h₂
      · simp only [Function.update_of_ne hne₁, Function.update_of_ne hne₂] at h₁ h₂
        exact h.fds h₁ h₂
  after := .inl rfl
  before := .inr ⟨by simp [Process.waits, hpc], .inr ⟨fd, hfd⟩⟩

/-! ## Every step -/

theorem Locked.kept_iff (h : Locked s) (g : Bool) :
    s.Kept g ↔ ∃ j, (s.file g).owner = some (.client j) ∧ ¬ (s.process j).holds g := by
  constructor
  · rintro ⟨p, hp, hnot⟩
    cases p with
    | kwatcher => exact absurd (h.kwatcher hp) hnot
    | client j => exact ⟨j, hp, hnot⟩
  · rintro ⟨j, hj, hnot⟩
    exact ⟨.client j, hj, hnot⟩

/-- kwatcher takes `f`, keeps it or gives it back. -/
structure KActs (s t : State) (f : Bool) (o : Option Owner) : Prop where
  owner : ∀ g, (t.file g).owner = if g = f then o else (s.file g).owner
  process : t.process = s.process
  tick : o = some .kwatcher → t.ticktack = !f
  before : (s.file f).owner = none ∧ s.kpc.holds = none ∨ s.kpc.holds = some f
  after : o = none ∧ t.kpc.holds = none ∨ o = some .kwatcher ∧ t.kpc.holds = some f

theorem KActs.owner_client (ha : KActs s t f o) (h : Locked s) {j : Nat} {g : Bool} :
    (t.file g).owner = some (.client j) ↔ (s.file g).owner = some (.client j) := by
  by_cases hg : g = f
  · subst hg
    refine iff_of_false ?_ ?_
    · rw [ha.owner, if_pos rfl]
      rcases ha.after with ⟨ho, _⟩ | ⟨ho, _⟩ <;> simp [ho]
    · rcases ha.before with ⟨hfree, _⟩ | hheld
      · simp [hfree]
      · simp [h.owner (o := .kwatcher) hheld]
  · rw [ha.owner, if_neg hg]

theorem KActs.locked (ha : KActs s t f o) (h : Locked s) : Locked t where
  owner := by
    intro p g hp
    cases p with
    | kwatcher =>
      rcases ha.after with ⟨_, hnone⟩ | ⟨ho, hheld⟩
      · simp [State.holds, hnone] at hp
      · obtain rfl : f = g := by simpa [State.holds, hheld] using hp
        rw [ha.owner, if_pos rfl, ho]
    | client j =>
      rw [ha.owner_client h]
      simp only [State.holds, ha.process] at hp
      exact h.owner (o := .client j) hp
  kwatcher := by
    intro g hg
    by_cases hgf : g = f
    · subst hgf
      rw [ha.owner, if_pos rfl] at hg
      rcases ha.after with ⟨ho, _⟩ | ⟨_, hheld⟩
      · rw [ho] at hg
        cases hg
      · exact hheld
    · rw [ha.owner, if_neg hgf] at hg
      rcases ha.before with ⟨_, hnone⟩ | hheld
      · rw [h.kwatcher hg] at hnone
        cases hnone
      · rw [h.kwatcher hg] at hheld
        exact absurd (Option.some.inj hheld) hgf
  tick := by
    intro g hg
    rcases ha.after with ⟨_, hnone⟩ | ⟨ho, hheld⟩
    · rw [hnone] at hg
      cases hg
    · rw [hheld] at hg
      rw [← Option.some.inj hg]
      exact ha.tick ho
  call := by
    rw [ha.process]
    exact h.call
  fds := by
    rw [ha.process]
    exact h.fds

theorem KActs.kept_iff (ha : KActs s t f o) (h : Locked s) (g : Bool) : t.Kept g ↔ s.Kept g := by
  rw [(ha.locked h).kept_iff, h.kept_iff, ha.process]
  exact exists_congr fun j => and_congr_left fun _ => ha.owner_client h

theorem KActs.waits_of_ne (ha : KActs s t f o) {p : Owner} (hp : p ≠ .kwatcher) :
    t.waits p = s.waits p := by
  cases p with
  | kwatcher => exact absurd rfl hp
  | client j => simp only [State.waits, ha.process]

theorem kacts_lock (hpc : s.kpc = .lock) (hfree : (s.file s.ticktack).owner = none) :
    KActs s { s.setOwner s.ticktack (some .kwatcher) with
      ticktack := !s.ticktack
      kpc := .held s.ticktack } s.ticktack (some .kwatcher) where
  owner := fun g => setOwner_owner s s.ticktack g _
  process := rfl
  tick := fun _ => rfl
  before := .inl ⟨hfree, by rw [hpc]; rfl⟩
  after := .inr ⟨rfl, rfl⟩

theorem Locked.kacts_write (h : Locked s) (hk : s.kpc = .held f) (names : List CStr) :
    KActs s { s.setContent f (locked_write (s.file f).content (lockedf names)) with
      kpc := .written f
      published := s.published ++ [names] } f (some .kwatcher) where
  owner := by
    intro g
    refine (setContent_owner s f g _).trans ?_
    by_cases hg : g = f
    · rw [if_pos hg, hg]
      exact h.owner (o := .kwatcher) (by simp [State.holds, hk, KPc.holds])
    · rw [if_neg hg]
  process := rfl
  tick := fun _ => h.tick (by rw [hk]; rfl)
  before := .inr (by rw [hk]; rfl)
  after := .inr ⟨rfl, rfl⟩

theorem kacts_unlock (hk : s.kpc = .written f) :
    KActs s { s.setOwner f none with kpc := .lock } f none where
  owner := fun g => setOwner_owner s f g none
  process := rfl
  tick := nofun
  before := .inr (by rw [hk]; rfl)
  after := .inl ⟨rfl, rfl⟩

/-- A process that calls holds what it held. -/
theorem call_holds (hpc : (s.process i).pc = .idle) (call : Call) (p : Owner) (g : Bool) :
    (s.setPc i (.waiting call)).holds p g ↔ s.holds p g := by
  cases p with
  | kwatcher => rfl
  | client j =>
    by_cases hj : j = i
    · subst hj
      simp [State.holds, State.setPc, State.setProcess, Process.holds, Pc.holds, hpc]
    · simp [State.holds, State.setPc, State.setProcess, hj]

theorem Locked.call_locked (h : Locked s) (hpc : (s.process i).pc = .idle) (call : Call) :
    Locked (s.setPc i (.waiting call)) where
  owner := fun hp => h.owner ((call_holds hpc call _ _).mp hp)
  kwatcher := h.kwatcher
  tick := h.tick
  call := by
    intro j g fd hg
    by_cases hj : j = i
    · subst hj
      simp [State.setPc, State.setProcess, Pc.holds] at hg
    · simp only [State.setPc, State.setProcess, Function.update_of_ne hj] at hg ⊢
      exact h.call fd hg
  fds := by
    intro j g fd fd' hfd hfd'
    by_cases hj : j = i
    · subst hj
      simp only [State.setPc, State.setProcess, Function.update_self] at hfd hfd'
      exact h.fds hfd hfd'
    · simp only [State.setPc, State.setProcess, Function.update_of_ne hj] at hfd hfd'
      exact h.fds hfd hfd'

theorem call_change (hpc : (s.process i).pc = .idle) (call : Call) :
    Change s.waitGraph (s.setPc i (.waiting call)).waitGraph := by
  refine .ask (.client i) ?_ (fun _ => rfl) ?_ fun g => ?_
  · simp [State.waitGraph, State.waits, Process.waits, hpc]
  · intro p hp
    cases p with
    | kwatcher => rfl
    | client j =>
      have hj : j ≠ i := by
        rintro rfl
        exact hp rfl
      simp [State.waitGraph, State.waits, State.setPc, State.setProcess, hj]
  · exact exists_congr fun p => and_congr_right fun _ => not_congr (call_holds hpc call p g)

/-- The steps are steps of the graph. -/
theorem Locked.step (h : Locked s) {l : Label} (hstep : Sessions.step s l = some t) :
    Locked t ∧ Change s.waitGraph t.waitGraph := by
  cases step_cases hstep with
  | lock hpc hfree =>
    have ha := kacts_lock hpc hfree
    refine ⟨ha.locked h, .take .kwatcher s.ticktack ?_ hfree ((ha.owner _).trans (if_pos rfl))
      (fun g hg => (ha.owner g).trans (if_neg hg)) ?_ (fun p hp => ha.waits_of_ne hp) (ha.kept_iff h)⟩
    · simp [State.waitGraph, State.waits, hpc]
    · simp [State.waitGraph, State.waits]
  | write names f hk hfit =>
    have ha := h.kacts_write hk names
    refine ⟨ha.locked h, .stay (fun g => setContent_owner s f g _) ?_ (ha.kept_iff h)⟩
    intro p
    cases p with
    | kwatcher => simp [State.waitGraph, State.waits, hk]
    | client j => exact ha.waits_of_ne (p := .client j) (by simp)
  | unlock f hk =>
    have ha := kacts_unlock hk
    have hheld : s.holds .kwatcher f := by simp [State.holds, hk, KPc.holds]
    refine ⟨ha.locked h, .give .kwatcher f (h.owner hheld) (h.not_kept hheld) ?_
      ((ha.owner _).trans (if_pos rfl)) (fun g hg => (ha.owner g).trans (if_neg hg))
      (fun p hp => ha.waits_of_ne hp) (ha.kept_iff h)⟩
    simp [State.waitGraph, State.waits, hk]
  | call i c hpc => exact ⟨h.call_locked hpc c, call_change hpc c⟩
  | clientLock i c f hpc hf hfree =>
    have ha := h.acts_lock hpc hf hfree
    exact ⟨ha.locked h, ha.change h⟩
  | readList i ok f disk hpc =>
    obtain ⟨c, ha, _⟩ := h.acts_readList hpc ok
    exact ⟨ha.locked h, ha.change h⟩
  | openFile i type ok f disk t hpc hopen =>
    obtain ⟨c, ha, _⟩ := h.acts_openFile hpc hopen
    exact ⟨ha.locked h, ha.change h⟩
  | clientClose i f hpc =>
    have ha := h.acts_release (i := i) (f := f) (by rw [hpc]; rfl)
    exact ⟨ha.locked h, ha.change h⟩
  | clientNullify i f hpc =>
    have ha := h.acts_nullify hpc
    exact ⟨ha.locked h, ha.change h⟩
  | clientUnlock i f hpc =>
    have ha := h.acts_release (i := i) (f := f) (by rw [hpc]; rfl)
    exact ⟨ha.locked h, ha.change h⟩
  | jitclose i fd f hpc hfd =>
    have ha := h.acts_jitclose hpc hfd
    exact ⟨ha.locked h, ha.change h⟩

end Steps

end JitDt.Lockfile.Sessions
