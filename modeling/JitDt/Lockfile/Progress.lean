import JitDt.Lockfile.Deaths

/-!
# The hand-over can always go on

No process waits for a lock file while it holds the other one: kwatcher unlocks before it locks,
and a client holds one file at a time. So whoever holds a file can give it up, and from every state
that can be reached, whoever has died on the way, kwatcher can publish the next set and a client
that waits can get it. If the two have lost step, the client first looks into the wrong file.
-/

namespace JitDt.Lockfile

set_option autoImplicit false

open Machine

def State.holds (s : State) : Owner → Option Bool
  | .kwatcher => s.kpc.holds
  | .client i => (s.client i).pc.holds

/-- The process that makes the step. -/
def Label.process : Label → Owner
  | .lock | .write _ | .unlock => .kwatcher
  | .clientLock i | .clientRead i _ | .clientClose i | .clientNullify i | .clientUnlock i => .client i

/-- A lock belongs to the process whose program holds it. -/
def Locked (s : State) : Prop := ∀ f o, (s.file f).owner = some o ↔ s.holds o = some f

theorem locked_init (content : Bool → List UInt8) : Locked (init content) := by
  intro f o
  cases o <;> simp [init, State.holds, KPc.holds, CPc.holds]

section Steps
variable {s t : State} {o : Owner} {f : Bool}

/-- Process `o` takes, keeps or gives up file `f`. -/
theorem Locked.change (h : Locked s) (new : Option Owner)
    (hfile : ∀ g, (t.file g).owner = if g = f then new else (s.file g).owner)
    (hothers : ∀ p, p ≠ o → t.holds p = s.holds p)
    (hbefore : s.holds o = some f ∨ (s.holds o = none ∧ (s.file f).owner = none))
    (hafter : (t.holds o = some f ∧ new = some o) ∨ (t.holds o = none ∧ new = none)) :
    Locked t := by
  -- no other process holds `f`, and `o` holds no other file
  have hfree : ∀ p, p ≠ o → s.holds p ≠ some f := by
    intro p hp hheld
    have hown := (h f p).mpr hheld
    rcases hbefore with ho | ⟨_, hnone⟩
    · rw [(h f o).mpr ho] at hown
      exact hp (Option.some.inj hown).symm
    · rw [hnone] at hown
      cases hown
  have hone : ∀ g, g ≠ f → s.holds o ≠ some g := by
    intro g hg hheld
    rcases hbefore with ho | ⟨hnone, _⟩
    · rw [ho] at hheld
      exact hg (Option.some.inj hheld).symm
    · rw [hnone] at hheld
      cases hheld
  have htone : ∀ g, g ≠ f → t.holds o ≠ some g := by
    intro g hg hheld
    rcases hafter with ⟨ho, _⟩ | ⟨hnone, _⟩
    · rw [ho] at hheld
      exact hg (Option.some.inj hheld).symm
    · rw [hnone] at hheld
      cases hheld
  intro g p
  rw [hfile]
  by_cases hg : g = f
  · subst hg
    rw [if_pos rfl]
    by_cases hp : p = o
    · subst hp
      rcases hafter with ⟨ho, rfl⟩ | ⟨hnone, rfl⟩
      · simp [ho]
      · simp [hnone]
    · rw [hothers p hp]
      refine iff_of_false ?_ (hfree p hp)
      rcases hafter with ⟨_, rfl⟩ | ⟨_, rfl⟩
      · exact fun heq => hp (Option.some.inj heq).symm
      · simp
  · rw [if_neg hg]
    by_cases hp : p = o
    · subst hp
      exact iff_of_false (fun heq => hone g hg ((h g p).mp heq)) (htone g hg)
    · rw [hothers p hp]
      exact h g p

theorem holds_setClient {i : Nat} {c : Client} {p : Owner} (hp : p ≠ .client i) :
    (s.setClient i c).holds p = s.holds p := by
  cases p with
  | kwatcher => rfl
  | client j =>
    have hj : j ≠ i := by
      rintro rfl
      exact hp rfl
    simp [State.holds, State.setClient, hj]

theorem holds_client {i : Nat} {c : Client} (f : Bool) (own : Option Owner) :
    ((s.setOwner f own).setClient i c).holds (.client i) = c.pc.holds := by
  simp [State.holds, State.setClient]

/-- The steps of a client that holds `f`, from what they make of it. -/
theorem Locked.client (h : Locked s) {i : Nat} (hi : s.holds (.client i) = some f)
    (new : Option Owner) (hfile : ∀ g, (t.file g).owner = if g = f then new else (s.file g).owner)
    {c : Client} (hkpc : t.kpc = s.kpc) (hclient : t.client = Function.update s.client i c)
    (hafter : (c.pc.holds = some f ∧ new = some (.client i)) ∨ (c.pc.holds = none ∧ new = none)) :
    Locked t := by
  have hthis : t.holds (.client i) = c.pc.holds := by simp [State.holds, hclient]
  refine h.change new (o := .client i) hfile ?_ (.inl hi) (by rwa [hthis])
  intro p hp
  cases p with
  | kwatcher => simp [State.holds, hkpc]
  | client j =>
    have hj : j ≠ i := by
      rintro rfl
      exact hp rfl
    simp [State.holds, hclient, hj]

theorem owner_same (h : Locked s) (ho : s.holds o = some f) (g : Bool) :
    (s.file g).owner = if g = f then some o else (s.file g).owner := by
  by_cases hg : g = f
  · rw [if_pos hg, hg]
    exact (h f o).mpr ho
  · rw [if_neg hg]

theorem Locked.step (h : Locked s) {l : Label} (hstep : Lockfile.step s l = some t) : Locked t := by
  cases step_cases hstep with
  | lock hpc hfree =>
    refine h.change (some .kwatcher) (o := .kwatcher) (f := s.ticktack) (by simp) ?_
      (.inr ⟨by simp [State.holds, hpc, KPc.holds], hfree⟩) (.inl ⟨rfl, rfl⟩)
    intro p hp
    cases p with
    | kwatcher => exact absurd rfl hp
    | client j => rfl
  | write names f hk hfit =>
    have hheld : s.holds .kwatcher = some f := by rw [State.holds, hk]; rfl
    refine h.change (some .kwatcher) (o := .kwatcher) (f := f) ?_ ?_ (.inl hheld)
      (.inl ⟨rfl, rfl⟩)
    · intro g
      simpa using owner_same h hheld g
    · intro p hp
      cases p with
      | kwatcher => exact absurd rfl hp
      | client j => rfl
  | unlock f hk =>
    refine h.change none (o := .kwatcher) (f := f) (by simp) ?_
      (.inl (by rw [State.holds, hk]; rfl)) (.inr ⟨rfl, rfl⟩)
    intro p hp
    cases p with
    | kwatcher => exact absurd rfl hp
    | client j => rfl
  | clientLock i hpc hfree =>
    refine h.change (some (.client i)) (o := .client i) (f := (s.client i).ticktack) ?_
      (fun p hp => holds_setClient hp) (.inr ⟨by simp [State.holds, hpc, CPc.holds], hfree⟩)
      (.inl ⟨holds_client _ _, rfl⟩)
    intro g
    exact setOwner_owner s _ g _
  | clientRead i ok f hpc =>
    have hheld : s.holds (.client i) = some f := by rw [State.holds, hpc]; rfl
    obtain ⟨hfile, hkpc, _, _⟩ := clientRead_same s i f ok
    refine h.client hheld (some (.client i)) ?_ (c := (s.clientRead i f ok).client i) hkpc ?_ ?_
    · intro g
      rw [hfile]
      exact owner_same h hheld g
    · unfold State.clientRead
      split <;> simp [State.setClient]
    · unfold State.clientRead
      split <;> simp [State.setClient, CPc.holds]
  | clientClose i f hpc =>
    exact h.client (by rw [State.holds, hpc]; rfl) (f := f) none
      (fun g => setOwner_owner s f g none) rfl rfl (.inr ⟨rfl, rfl⟩)
  | clientNullify i f hpc =>
    have hheld : s.holds (.client i) = some f := by rw [State.holds, hpc]; rfl
    refine h.client hheld (some (.client i)) ?_ rfl rfl (.inl ⟨rfl, rfl⟩)
    intro g
    exact (setContent_owner s f g _).trans (owner_same h hheld g)
  | clientUnlock i f hpc =>
    exact h.client (by rw [State.holds, hpc]; rfl) (f := f) none
      (fun g => setOwner_owner s f g none) rfl rfl (.inr ⟨rfl, rfl⟩)

theorem released_iff {g : Bool} {p : Owner} :
    ((s.released o).file g).owner = some p ↔ (s.file g).owner = some p ∧ p ≠ o := by
  show (if (s.file g).owner = some o then none else (s.file g).owner) = some p ↔ _
  split
  · rename_i howner
    refine iff_of_false (by simp) ?_
    rintro ⟨hp, hne⟩
    rw [howner] at hp
    exact hne (Option.some.inj hp).symm
  · rename_i hnot
    refine ⟨fun hp => ⟨hp, ?_⟩, And.left⟩
    rintro rfl
    exact hnot hp

/-- The locks of a process that is no more are free. -/
theorem Locked.died (h : Locked s) (hfile : ∀ g, (t.file g).owner = ((s.released o).file g).owner)
    (hnone : t.holds o = none) (hothers : ∀ p, p ≠ o → t.holds p = s.holds p) : Locked t := by
  intro g p
  rw [hfile, released_iff, h]
  by_cases hp : p = o
  · subst hp
    simp [hnone]
  · rw [hothers p hp]
    simp [hp]

theorem Locked.within (h : Locked s) {P : Label → Prop} {k : Nat}
    (hrun : Within Lockfile.step P k s t) : Locked t :=
  hrun.invariant (fun h hstep => h.step hstep) h

theorem Locked.lifeStep (h : Locked s) {e : Event} (hstep : Lockfile.lifeStep s e = some t) :
    Locked t := by
  cases e with
  | step l => exact h.step hstep
  | kwatcherDies =>
    rw [← Option.some.inj hstep]
    refine h.died (o := .kwatcher) (fun _ => rfl) rfl ?_
    intro p hp
    cases p with
    | kwatcher => exact absurd rfl hp
    | client j => rfl
  | clientDies i =>
    rw [← Option.some.inj hstep]
    exact h.died (o := .client i) (fun _ => rfl) (by simp [State.clientDied, State.holds,
      State.setClient, CPc.holds]) fun p hp => (holds_setClient hp).trans rfl

theorem exec_locked {content : Bool → List UInt8} {es : List Event} {s : State}
    (hrun : exec lifeStep (init content) es = some s) : Locked s :=
  exec_invariant (fun h hstep => h.lifeStep hstep) (locked_init content) hrun

end Steps

/-! ## Whoever holds a file can give it up -/

/-- Nothing has happened to the locks and the ticks but to the lock of `f`. -/
structure Keeps (f : Bool) (s t : State) : Prop where
  other : ∀ g, g ≠ f → (t.file g).owner = (s.file g).owner
  tick : t.ticktack = s.ticktack
  ticks : ∀ i, (t.client i).ticktack = (s.client i).ticktack

theorem Keeps.trans {f : Bool} {s t u : State} (h : Keeps f s t) (h' : Keeps f t u) : Keeps f s u where
  other := fun g hg => (h'.other g hg).trans (h.other g hg)
  tick := h'.tick.trans h.tick
  ticks := fun i => (h'.ticks i).trans (h.ticks i)

/-- `f` is free after at most `k` steps of `o`. -/
def Frees (o : Owner) (k : Nat) (f : Bool) (s : State) : Prop :=
  ∃ t, Within step (fun l => l.process = o) k s t ∧ (t.file f).owner = none ∧ Keeps f s t

section Release
variable {s t : State} {i : Nat} {f : Bool}

theorem Frees.head {o : Owner} {k : Nat} {l : Label} (hl : l.process = o) (hstep : step s l = some t)
    (hkeeps : Keeps f s t) (h : Frees o k f t) : Frees o (k + 1) f s := by
  obtain ⟨u, hrun, hfree, hrest⟩ := h
  exact ⟨u, hrun.head hl hstep, hfree, hkeeps.trans hrest⟩

theorem keeps_released (s : State) (i : Nat) (f : Bool) (pc : CPc) :
    Keeps f s ((s.setOwner f none).setPc i pc) where
  other := fun g hg => (setOwner_owner s f g none).trans (if_neg hg)
  tick := rfl
  ticks := by
    intro j
    by_cases hj : j = i
    · subst hj
      simp [State.setPc, State.setClient, State.setOwner]
    · simp [State.setPc, State.setClient, State.setOwner, hj]

theorem frees_nullified (hpc : (s.client i).pc = .nullified f) : Frees (.client i) 1 f s := by
  refine ⟨(s.setOwner f none).setPc i .idle, ?_, ?_, keeps_released s i f .idle⟩
  · exact (Within.refl _).head (l := .clientUnlock i) rfl (by simp [step, hpc])
  · exact (setOwner_owner s f f none).trans (if_pos rfl)

theorem frees_failed (hpc : (s.client i).pc = .failed f) : Frees (.client i) 1 f s := by
  refine ⟨(s.setOwner f none).setPc i .idle, ?_, ?_, keeps_released s i f .idle⟩
  · exact (Within.refl _).head (l := .clientClose i) rfl (by simp [step, hpc])
  · exact (setOwner_owner s f f none).trans (if_pos rfl)

theorem frees_got (hpc : (s.client i).pc = .got f) : Frees (.client i) 2 f s := by
  refine Frees.head (l := .clientNullify i)
    (t := (s.setContent f (nullify (s.file f).content)).setPc i (.nullified f)) rfl
    (by simp [step, hpc]) ?_ (frees_nullified (by simp [State.setPc, State.setClient]))
  constructor
  · exact fun g _ => setContent_owner s f g _
  · rfl
  · intro j
    by_cases hj : j = i
    · subst hj
      simp [State.setPc, State.setClient, State.setContent]
    · simp [State.setPc, State.setClient, State.setContent, hj]

theorem frees_locked (hpc : (s.client i).pc = .locked f) : Frees (.client i) 3 f s := by
  obtain ⟨hfile, _, htick, _⟩ := clientRead_same s i f true
  have hread : ((s.clientRead i f true).client i).pc = .failed f ∨
      ((s.clientRead i f true).client i).pc = .got f := by
    unfold State.clientRead
    split
    · exact .inl (by simp [State.setClient])
    · exact .inr (by simp [State.setClient])
  have hkeeps : Keeps f s (s.clientRead i f true) := by
    refine ⟨fun g _ => by rw [hfile], htick, fun j => ?_⟩
    unfold State.clientRead
    by_cases hj : j = i
    · subst hj
      split <;> simp [State.setClient]
    · split <;> simp [State.setClient, hj]
  have hstep : step s (.clientRead i true) = some (s.clientRead i f true) := by simp [step, hpc]
  rcases hread with hfailed | hgot
  · obtain ⟨t, hrun, hrest⟩ := frees_failed hfailed
    exact Frees.head rfl hstep hkeeps ⟨t, hrun.mono (by omega) fun _ hl => hl, hrest⟩
  · exact Frees.head rfl hstep hkeeps (frees_got hgot)

theorem frees_written (hk : s.kpc = .written f) : Frees .kwatcher 1 f s := by
  refine ⟨{ s.setOwner f none with kpc := .lock }, ?_, ?_, ?_, rfl, fun _ => rfl⟩
  · exact (Within.refl _).head (l := .unlock) rfl (by simp [step, hk])
  · exact (setOwner_owner s f f none).trans (if_pos rfl)
  · exact fun g hg => (setOwner_owner s f g none).trans (if_neg hg)

theorem frees_held {names : List CStr} (hfit : FitsTables names) (hk : s.kpc = .held f) :
    Frees .kwatcher 2 f s := by
  refine Frees.head (l := .write names) (t := { s.setContent f (locked_write (s.file f).content
    (lockedf names)) with kpc := .written f, published := s.published ++ [names] }) rfl
    (by simp [step, hk, hfit]) ?_ (frees_written rfl)
  exact ⟨fun g _ => setContent_owner s f g _, rfl, fun _ => rfl⟩

/-- The holder of a file does not wait: at most three steps of its own free the file, if kwatcher
has a set to publish. -/
theorem Locked.frees (h : Locked s) {names : List CStr} (hfit : FitsTables names) {o : Owner}
    (howner : (s.file f).owner = some o) : Frees o 3 f s := by
  have hmono : ∀ {p : Owner} {k : Nat}, k ≤ 3 → Frees p k f s → Frees p 3 f s := by
    rintro p k hk ⟨t, hrun, hrest⟩
    exact ⟨t, hrun.mono hk fun _ hl => hl, hrest⟩
  have hheld := (h f o).mp howner
  cases o with
  | kwatcher =>
    cases hk : s.kpc with
    | lock => simp [State.holds, hk, KPc.holds] at hheld
    | held g =>
      obtain rfl : g = f := by simpa [State.holds, hk, KPc.holds] using hheld
      exact hmono (by omega) (frees_held hfit hk)
    | written g =>
      obtain rfl : g = f := by simpa [State.holds, hk, KPc.holds] using hheld
      exact hmono (by omega) (frees_written hk)
  | client i =>
    cases hpc : (s.client i).pc with
    | idle => simp [State.holds, hpc, CPc.holds] at hheld
    | locked g =>
      obtain rfl : g = f := by simpa [State.holds, hpc, CPc.holds] using hheld
      exact frees_locked hpc
    | failed g =>
      obtain rfl : g = f := by simpa [State.holds, hpc, CPc.holds] using hheld
      exact hmono (by omega) (frees_failed hpc)
    | got g =>
      obtain rfl : g = f := by simpa [State.holds, hpc, CPc.holds] using hheld
      exact hmono (by omega) (frees_got hpc)
    | nullified g =>
      obtain rfl : g = f := by simpa [State.holds, hpc, CPc.holds] using hheld
      exact hmono (by omega) (frees_nullified hpc)

end Release

/-! ## The next set -/

/-- kwatcher, client `i`, and whoever holds a lock file. -/
def Involved (s : State) (i : Nat) (l : Label) : Prop :=
  l.process = .kwatcher ∨ l.process = .client i ∨ s.holds l.process ≠ none

section Resume
variable {s t : State} {i : Nat} {names : List CStr}

/-- One file after the other is given up. -/
theorem Locked.free_all (h : Locked s) (hfit : FitsTables names) (i : Nat) :
    ∃ t, Within Lockfile.step (Involved s i) 6 s t ∧ ∀ f, (t.file f).owner = none := by
  have hfree : ∀ {u : State} (f : Bool), Locked u → (u.file f).owner = (s.file f).owner →
      ∃ t, Within Lockfile.step (Involved s i) 3 u t ∧ (t.file f).owner = none ∧ Keeps f u t := by
    intro u f hu hsame
    cases howner : (u.file f).owner with
    | none =>
      exact ⟨u, (Within.refl u).mono (Nat.zero_le 3) fun _ hl => hl, howner,
        ⟨fun _ _ => rfl, rfl, fun _ => rfl⟩⟩
    | some o =>
      obtain ⟨t, hrun, hrest⟩ := hu.frees hfit howner
      refine ⟨t, hrun.mono (le_refl 3) fun l hl => .inr (.inr ?_), hrest⟩
      rw [hl, (h f o).mp (hsame ▸ howner)]
      simp
  obtain ⟨t, hst, hfirst, hkeeps⟩ := hfree false h rfl
  obtain ⟨u, htu, hsecond, hkeeps'⟩ := hfree true (h.within hst)
    (hkeeps.other true (by decide))
  refine ⟨u, hst.trans htu, ?_⟩
  intro f
  cases f with
  | false => rw [hkeeps'.other false (by decide), hfirst]
  | true => exact hsecond

theorem Locked.idle (h : Locked s) (hfree : ∀ f, (s.file f).owner = none) :
    s.kpc = .lock ∧ ∀ i, (s.client i).pc = .idle := by
  have hnone : ∀ o, s.holds o = none := by
    intro o
    cases ho : s.holds o with
    | none => rfl
    | some f =>
      have howner := (h f o).mpr ho
      rw [hfree f] at howner
      cases howner
  refine ⟨?_, fun i => ?_⟩
  · have hk := hnone .kwatcher
    cases hpc : s.kpc <;> simp_all [State.holds, KPc.holds]
  · have hi := hnone (.client i)
    cases hpc : (s.client i).pc <;> simp_all [State.holds, CPc.holds]

/-- A client out of step takes the wrong file, and gives it up again. -/
theorem Locked.in_step (h : Locked s) (hfree : ∀ f, (s.file f).owner = none)
    (hfit : FitsTables names) (i : Nat) :
    ∃ t, Within Lockfile.step (fun l => l.process = .client i) 4 s t ∧ (∀ f, (t.file f).owner = none) ∧
      (t.client i).ticktack = t.ticktack := by
  by_cases htick : (s.client i).ticktack = s.ticktack
  · exact ⟨s, (Within.refl s).mono (Nat.zero_le 4) fun _ hl => hl, hfree, htick⟩
  · have hidle := (h.idle hfree).2 i
    have hstep : Lockfile.step s (.clientLock i) = some (s.clientLocked i) := by
      simp [Lockfile.step, hidle, hfree]
    have howner : ((s.clientLocked i).file (s.client i).ticktack).owner = some (.client i) := by
      simp [State.clientLocked, State.setOwner, State.setClient]
    obtain ⟨t, hrun, hnone, hkeeps⟩ := (h.step hstep).frees hfit howner
    refine ⟨t, hrun.head rfl hstep, ?_, ?_⟩
    · intro f
      by_cases hf : f = (s.client i).ticktack
      · rw [hf, hnone]
      · rw [hkeeps.other f hf]
        simpa [State.clientLocked, State.setOwner, State.setClient, hf] using hfree f
    · rw [hkeeps.ticks, hkeeps.tick]
      simp only [State.clientLocked, State.setOwner, State.setClient, Function.update_self]
      exact Bool.not_eq.mpr htick

/-- kwatcher and a client in step: the next set goes through the file that both take. -/
theorem hand_over (hk : s.kpc = .lock) (hpc : (s.client i).pc = .idle)
    (hfree : ∀ f, (s.file f).owner = none) (htick : (s.client i).ticktack = s.ticktack)
    (hfit : FitsTables names) (hclean : ∀ n ∈ names, Clean n) :
    ∃ t u, exec step s [.lock, .write names, .unlock, .clientLock i] = some t ∧
      step t (.clientRead i true) = some u ∧ u.published = s.published ++ [names] ∧
      u.obtained = t.obtained ++ [names.map CStr.bytes] := by
  have hlock : step s .lock = some { s.setOwner s.ticktack (some .kwatcher) with
      ticktack := !s.ticktack
      kpc := .held s.ticktack } := by
    simp [step, hk, hfree]
  obtain ⟨s₁, h₁, hheld, howner₁, hclient₁, hpub₁⟩ :
      ∃ s₁, step s .lock = some s₁ ∧ s₁.kpc = .held s.ticktack ∧
        (s₁.file s.ticktack).owner = some .kwatcher ∧ s₁.client = s.client ∧
        s₁.published = s.published :=
    ⟨_, hlock, rfl, by simp, rfl, rfl⟩
  obtain ⟨s₂, h₂, hwritten, hholds₂, hclient₂, hpub₂⟩ :
      ∃ s₂, step s₁ (.write names) = some s₂ ∧ s₂.kpc = .written s.ticktack ∧
        Holds names (s₂.file s.ticktack).content ∧ s₂.client = s.client ∧
        s₂.published = s.published ++ [names] := by
    refine ⟨{ s₁.setContent s.ticktack (locked_write (s₁.file s.ticktack).content
      (lockedf names)) with kpc := .written s.ticktack, published := s₁.published ++ [names] },
      by simp [step, hheld, hfit], rfl, ?_, hclient₁, by rw [hpub₁]⟩
    simpa using holds_locked_write names (s₁.file s.ticktack).content
  obtain ⟨s₃, h₃, hfree₃, hholds₃, hclient₃, hpub₃⟩ :
      ∃ s₃, step s₂ .unlock = some s₃ ∧ (s₃.file s.ticktack).owner = none ∧
        Holds names (s₃.file s.ticktack).content ∧ s₃.client = s.client ∧
        s₃.published = s.published ++ [names] :=
    ⟨{ s₂.setOwner s.ticktack none with kpc := .lock }, by simp [step, hwritten], by simp,
      by simpa using hholds₂, hclient₂, hpub₂⟩
  have h₄ : step s₃ (.clientLock i) = some (s₃.clientLocked i) := by
    simp [step, hclient₃, hpc, htick, hfree₃]
  have hpc₄ : ((s₃.clientLocked i).client i).pc = .locked s.ticktack := by
    simp [State.clientLocked, State.setClient, hclient₃, htick]
  have hholds₄ : Holds names ((s₃.clientLocked i).file s.ticktack).content := by
    simpa [State.clientLocked, State.setClient] using hholds₃
  refine ⟨s₃.clientLocked i, _, exec_cons_iff.mpr ⟨s₁, h₁, exec_cons_iff.mpr ⟨s₂, h₂,
    exec_cons_iff.mpr ⟨s₃, h₃, exec_cons_iff.mpr ⟨_, h₄, rfl⟩⟩⟩⟩, by simp [step, hpc₄]; rfl, ?_, ?_⟩
  · rw [(clientRead_same _ i s.ticktack true).2.2.2]
    exact hpub₃
  · obtain ⟨n, hn⟩ := List.exists_mem_of_ne_nil names hfit.1
    have hline : firstLine (lockedf names) ≠ [] := by
      rw [firstLine_lockedf (newline_notMem_lockedf hclean)]
      intro hnil
      have hmem : ftchrSeparator ∈ lockedf names :=
        List.mem_flatMap.mpr ⟨n, hn, by simp⟩
      rw [hnil] at hmem
      cases hmem
    have hread := readNames_holds (b := ((s₃.clientLocked i).client i).fpath) hfit hholds₄
    rw [if_neg hline, readBack_clean hfit hclean] at hread
    unfold State.clientRead
    split
    · rename_i heq
      rw [heq] at hread
      cases hread
    · rename_i b files heq
      rw [heq] at hread
      obtain rfl : files = names.map CStr.bytes := Option.some.inj hread
      rfl

/-- Whatever has happened, deaths included, where the clients call only `_jitget`: if kwatcher has a
set and client `i` waits for one, then fourteen steps of them and of the processes that hold a lock
file are enough for a read that gives the client the set published last. -/
theorem hand_over_resumes {content : Bool → List UInt8} {es : List Event}
    (hrun : exec lifeStep (init content) es = some s) (hfit : FitsTables names)
    (hclean : ∀ n ∈ names, Clean n) (i : Nat) :
    ∃ t u, Within step (Involved s i) 14 s t ∧ step t (.clientRead i true) = some u ∧
      u.published.getLast? = some names ∧
      u.obtained = t.obtained ++ [names.map CStr.bytes] := by
  have h := exec_locked hrun
  obtain ⟨s₁, hrun₁, hfree₁⟩ := h.free_all hfit i
  obtain ⟨s₂, hrun₂, hfree₂, htick⟩ := (h.within hrun₁).in_step hfree₁ hfit i
  have h₂ := (h.within hrun₁).within hrun₂
  obtain ⟨hk, hpc⟩ := h₂.idle hfree₂
  obtain ⟨t, u, hrun₃, hread, hpub, hobt⟩ := hand_over hk (hpc i) hfree₂ htick hfit hclean
  refine ⟨t, u, (hrun₁.trans (hrun₂.mono (le_refl 4) ?_)).trans ⟨_, le_refl 4, ?_, hrun₃⟩, hread,
    by simp [hpub], hobt⟩
  · exact fun l hl => .inr (.inl hl)
  · simp [Involved, Label.process]

/-- kwatcher dies when a client has the first list in its hands, and its successor and client 1
wait for that file. -/
def waitForReader : List Event :=
  [.step .lock, .step (.write [oneName]), .step .unlock, .step (.clientLock 0),
    .step (.clientRead 0 true), .kwatcherDies]

theorem hand_over_resumes_waiting :
    ∃ s, exec lifeStep (init fun _ => []) waitForReader = some s ∧ step s .lock = none ∧
      step s (.clientLock 1) = none ∧
      ∃ t u, Within step (Involved s 1) 14 s t ∧ step t (.clientRead 1 true) = some u ∧
        u.published.getLast? = some [⟨[98], by decide⟩] ∧ u.obtained = t.obtained ++ [[[98]]] :=
  ⟨_, rfl, rfl, rfl, @hand_over_resumes _ [⟨[98], by decide⟩] (fun _ => []) waitForReader rfl
    (by decide) (by decide) 1⟩

end Resume

end JitDt.Lockfile
