import JitDt.Lockfile.Delivery

/-!
# The order in which publications are obtained

kwatcher unlocks one lock file before it locks the other. As long as it holds a file, no
client reaches a publication older than the last one; between its unlock and its next
lock a client can, and that is the only way in which the order is lost.
-/

namespace JitDt.Lockfile

set_option autoImplicit false

open Machine

def State.next (s : State) : Bool :=
  match s.kpc with
  | .held f => f
  | _ => s.ticktack

/-- A client reads the file kwatcher is about to lock: it still holds a publication,
while the newer one in the other file is gone. -/
def Overtakes (s : State) : Label → Prop
  | .clientRead i true =>
    s.kpc = .lock ∧ (s.client i).pc = .locked s.ticktack ∧ ¬ Blank (s.file s.ticktack).content ∧
      (Blank (s.file !s.ticktack).content ∨ ∃ j, (s.client j).pc = .got !s.ticktack)
  | _ => False

/-- The two mailboxes are used in turn, and kwatcher knows which one is next. -/
structure InPhase (s : State) (m : Mailboxes Bool) : Prop where
  refines : Refines s m
  turn : m.InTurn s.next
  tick : ∀ f, s.kpc.holds = some f → s.ticktack = !f
  fresh : ∀ f, s.kpc = .written f → m.cell f ≠ none

theorem inPhase_init {content : Bool → List UInt8} (h : ∀ f, Blank (content f)) :
    InPhase (init content) .empty where
  refines := refines_init h
  turn := Mailboxes.inTurn_empty _
  tick := by simp [init, KPc.holds]
  fresh := by simp [init]

namespace InPhase

variable {s s' : State} {m m' : Mailboxes Bool}

theorem lock (h : InPhase s m) (hstep : step s .lock = some s') : InPhase s' m := by
  have hr := h.refines.lock hstep
  cases step_cases hstep with
  | lock hpc _ =>
    have hnext : s.next = s.ticktack := by
      unfold State.next
      rw [hpc]
    refine ⟨hr, ?_, ?_, by simp⟩
    · show m.InTurn s.ticktack
      rw [← hnext]
      exact h.turn
    · intro f hf
      obtain rfl : s.ticktack = f := by simpa [KPc.holds] using hf
      rfl

theorem write (h : InPhase s m) {names : List CStr} (hstep : step s (.write names) = some s') :
    ∃ f, s.kpc = .held f ∧ InPhase s' (m.send f) := by
  obtain ⟨f, hk, hk', htick', hr⟩ := h.refines.write hstep
  have htick := h.tick f (by rw [hk]; rfl)
  have hturn : m.InTurn f := by
    have := h.turn
    simpa only [State.next, hk] using this
  refine ⟨f, hk, hr, ?_, ?_, ?_⟩
  · have hnext : s'.next = !f := by
      simp only [State.next, hk', htick', htick]
    rw [hnext]
    exact hturn.send
  · intro g hg
    rw [hk'] at hg
    obtain rfl : f = g := by simpa [KPc.holds] using hg
    rw [htick', htick]
  · intro g hg
    rw [hk'] at hg
    obtain rfl : f = g := by simpa using hg
    simp

theorem unlock (h : InPhase s m) (hstep : step s .unlock = some s') : InPhase s' m := by
  obtain ⟨f, hk⟩ : ∃ f, s.kpc = .written f := by
    cases step_cases hstep with
    | unlock f hk => exact ⟨f, hk⟩
  obtain ⟨hk', htick, hr⟩ := h.refines.unlock hstep
  refine ⟨hr, ?_, by simp [hk', KPc.holds], by simp [hk']⟩
  have := h.turn
  simpa only [State.next, hk, hk', htick] using this

theorem client (h : InPhase s m) (hr : Refines s' m') (hk : s'.kpc = s.kpc)
    (ht : s'.ticktack = s.ticktack) (hturn : m'.InTurn s.next)
    (hfresh : ∀ f, s.kpc = .written f → m'.cell f ≠ none) : InPhase s' m' where
  refines := hr
  turn := by
    have hnext : s'.next = s.next := by simp only [State.next, hk, ht]
    rw [hnext]
    exact hturn
  tick := by
    intro f hf
    rw [hk] at hf
    rw [ht]
    exact h.tick f hf
  fresh := by
    intro f hf
    rw [hk] at hf
    exact hfresh f hf

theorem fresh_other (h : InPhase s m) {i : Nat} {f : Bool} (hi : (s.client i).pc = .locked f)
    (g : Bool) (hg : s.kpc = .written g) : g ≠ f := by
  rintro rfl
  exact h.refines.not_held_of_kwatcher (i := i) (by rw [hg]; rfl) (by rw [hi]; rfl)

/-- Where a client takes a message from the file that is written next, the newer one is
still in the other file, unless it overtakes it. -/
theorem newer_waits (h : InPhase s m) {i : Nat} {f : Bool} (hi : (s.client i).pc = .locked f)
    (hblank : ¬ Blank (s.file f).content) (ho : ¬ Overtakes s (.clientRead i true))
    (hf : f = s.next) : m.cell (!s.next) ≠ none := by
  cases hk : s.kpc with
  | lock =>
    have hnext : s.next = s.ticktack := by simp only [State.next, hk]
    rw [hnext] at hf ⊢
    subst hf
    intro hnone
    refine ho ⟨hk, hi, hblank, ?_⟩
    by_cases hgot : ∃ j, (s.client j).pc = .got !s.ticktack
    · exact Or.inr hgot
    · have hcontent := h.refines.content (!s.ticktack) fun j hj => hgot ⟨j, hj⟩
      rw [hnone] at hcontent
      exact Or.inl hcontent
  | held g =>
    have hnext : s.next = g := by simp only [State.next, hk]
    rw [hnext] at hf
    subst hf
    exact absurd (by rw [hi]; rfl) (h.refines.not_held_of_kwatcher (i := i) (by rw [hk]; rfl))
  | written g =>
    have hnext : s.next = !g := by
      have htick := h.tick g (by rw [hk]; rfl)
      simp only [State.next, hk, htick]
    rw [hnext, Bool.not_not]
    exact h.fresh g hk

theorem byClient (h : InPhase s m) {l : Label} (hl : l.ByClient) (ho : ¬ Overtakes s l)
    (hstep : Lockfile.step s l = some s') : ∃ m', InPhase s' m' := by
  obtain ⟨hk, ht, _⟩ := step_byClient hl hstep
  obtain ⟨m', hr, hmove⟩ := h.refines.step hstep
  refine ⟨m', ?_⟩
  cases hmove with
  | stay _ => exact h.client hr hk ht h.turn h.fresh
  | send f names hw _ =>
    subst hw
    exact hl.elim
  | discard i f ok _ hpc =>
    refine h.client hr hk ht (h.turn.discard f) fun g hg => ?_
    rw [Mailboxes.discard_cell_other m (h.fresh_other hpc g hg)]
    exact h.fresh g hg
  | take i f k hcell hread hpc hblank =>
    subst hread
    refine h.client hr hk ht (h.turn.take hcell (h.newer_waits hpc hblank ho)) fun g hg => ?_
    rw [Mailboxes.take_cell_other m hcell (h.fresh_other hpc g hg)]
    exact h.fresh g hg

theorem step (h : InPhase s m) {l : Label} (ho : ¬ Overtakes s l)
    (hstep : Lockfile.step s l = some s') : ∃ m', InPhase s' m' := by
  cases l with
  | lock => exact ⟨m, h.lock hstep⟩
  | write names =>
    obtain ⟨f, _, h'⟩ := h.write hstep
    exact ⟨_, h'⟩
  | unlock => exact ⟨m, h.unlock hstep⟩
  | _ => exact h.byClient (by trivial) ho hstep

end InPhase

/-- In a run in which no client overtakes, publications are obtained in the order in
which kwatcher writes them. The condition is sufficient, not necessary: where both lists have the
same names, overtaking does not show. -/
theorem obtained_in_order {content : Bool → List UInt8} (hblank : ∀ f, Blank (content f))
    {ls : List Label} (horder : Along step (fun s l => ¬ Overtakes s l) (init content) ls)
    {s : State} (hrun : exec step (init content) ls = some s) :
    ∃ idx : List Nat, idx.Pairwise (· < ·) ∧ (∀ k ∈ idx, k < s.published.length) ∧
      s.delivered = idx.map (namesOf s.published) := by
  obtain ⟨m, h⟩ : ∃ m, InPhase s m := by
    refine exec_invariant_along (I := fun s => ∃ m, InPhase s m)
      (C := fun s l => ¬ Overtakes s l) ?_ ⟨.empty, inPhase_init hblank⟩ horder hrun
    rintro s l t ⟨m, h⟩ ho hstep
    exact h.step ho hstep
  refine ⟨m.taken, h.turn.ordered, ?_, h.refines.obtained⟩
  intro k hk
  rw [← h.refines.sent]
  exact m.taken_lt k hk

def Label.OneClient : Label → Prop
  | .clientLock i | .clientRead i _ | .clientClose i | .clientNullify i | .clientUnlock i => i = 0
  | _ => True

instance : ∀ l : Label, Decidable l.OneClient
  | .clientLock i | .clientRead i _ | .clientClose i | .clientNullify i | .clientUnlock i =>
    inferInstanceAs (Decidable (i = 0))
  | .lock | .write _ | .unlock => isTrue trivial

/-- A client reads only while kwatcher holds a file. -/
def Sheltered (s : State) : Label → Prop
  | .clientRead _ _ => s.kpc ≠ .lock
  | _ => True

instance (s : State) : ∀ l : Label, Decidable (Sheltered s l)
  | .clientRead _ _ => inferInstanceAs (Decidable (s.kpc ≠ .lock))
  | .lock | .write _ | .unlock | .clientLock _ | .clientClose _ | .clientNullify _
  | .clientUnlock _ => isTrue trivial

theorem Sheltered.not_overtakes {s : State} {l : Label} (h : Sheltered s l) : ¬ Overtakes s l := by
  intro ho
  cases l with
  | clientRead i ok =>
    cases ok with
    | false => exact ho
    | true => exact h ho.1
  | _ => exact ho

theorem nul_free_a : (0 : UInt8) ∉ [97] := by decide

def firstList : List CStr := [⟨[97], nul_free_a⟩]

def secondList : List CStr := [⟨[98], by decide⟩]

def inOrder : List Label :=
  [.lock, .write firstList, .unlock, .lock,
    .clientLock 0, .clientRead 0 true, .clientNullify 0, .clientUnlock 0,
    .write secondList, .unlock, .lock,
    .clientLock 0, .clientRead 0 true, .clientNullify 0, .clientUnlock 0]

theorem obtained_in_order_two :
    ∃ s, exec step (init fun _ => []) inOrder = some s ∧ s.delivered = [[[97]], [[98]]] ∧
      ∃ idx : List Nat, idx.Pairwise (· < ·) ∧ (∀ k ∈ idx, k < s.published.length) ∧
        s.delivered = idx.map (namesOf s.published) :=
  ⟨_, rfl, by decide, @obtained_in_order (fun _ => []) (fun _ => rfl) inOrder
    (Along.mono (C := Sheltered) (fun _ _ => Sheltered.not_overtakes) (by decide)) _ rfl⟩

/-- The client fails on the first file, so it waits for the second one. It takes the
second publication there, and the first one before kwatcher locks its file again. -/
def outOfOrder : List Label :=
  [.clientLock 0, .clientRead 0 true, .clientClose 0,
    .lock, .write firstList, .unlock, .lock, .write secondList, .unlock,
    .clientLock 0, .clientRead 0 true, .clientNullify 0, .clientUnlock 0,
    .clientLock 0, .clientRead 0 true, .clientNullify 0, .clientUnlock 0]

theorem obtained_out_of_order : (∀ l ∈ outOfOrder, l.OneClient) ∧
    ∃ s, exec step (init fun _ => []) outOfOrder = some s ∧
      s.published = [firstList, secondList] ∧ s.delivered = [[[98]], [[97]]] ∧
      ¬ ∃ idx : List Nat, idx.Pairwise (· < ·) ∧ (∀ k ∈ idx, k < s.published.length) ∧
        s.delivered = idx.map (namesOf s.published) := by
  obtain ⟨s, hs, hpub, hdel⟩ : ∃ s, exec step (init fun _ => []) outOfOrder = some s ∧
      s.published = [firstList, secondList] ∧ s.delivered = [[[98]], [[97]]] :=
    ⟨_, rfl, rfl, by decide⟩
  refine ⟨by decide, s, hs, hpub, hdel, ?_⟩
  rintro ⟨idx, hord, hlt, heq⟩
  rw [hdel, hpub] at heq
  rw [hpub] at hlt
  have hlen : idx.length = 2 := by simpa using (congrArg List.length heq).symm
  obtain ⟨a, b, rfl⟩ := List.length_eq_two.mp hlen
  have hb : b < 2 := hlt b (by simp)
  have hab : a < b := by simpa using hord
  obtain rfl : a = 0 := by omega
  exact absurd (List.cons.inj heq).1 (by decide)

end JitDt.Lockfile
