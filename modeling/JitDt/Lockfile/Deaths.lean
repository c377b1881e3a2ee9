import JitDt.Lockfile.Delivery

/-!
# Processes that die

A process that dies loses its lock, and the one started in its place takes the lock files from the
first one on. What a lock file holds stays: kwatcher writes a list in one call, and a client that
dies after its read and before the four zero bytes leaves the list for another reader. The proof
counts such a list as published once more.
-/

namespace JitDt.Lockfile

set_option autoImplicit false

open Machine

inductive Event where
  | step (l : Label)
  | kwatcherDies
  | clientDies (i : Nat)

namespace State

/-- The kernel gives up the locks of a process. -/
def released (s : State) (o : Owner) : State :=
  { s with file := fun f =>
      { s.file f with owner := if (s.file f).owner = some o then none else (s.file f).owner } }

def kwatcherDied (s : State) : State :=
  { s.released .kwatcher with ticktack := false, kpc := .lock }

/-- The next process linked with jitkclient.c has the number of the one that died. -/
def clientDied (s : State) (i : Nat) : State :=
  (s.released (.client i)).setClient i ⟨false, List.replicate (pathMax + 1) 0, .idle⟩

end State

def lifeStep (s : State) : Event → Option State
  | .step l => step s l
  | .kwatcherDies => some s.kwatcherDied
  | .clientDies i => some (s.clientDied i)

/-- A client dies with a list in its hands that is still in the lock file. -/
def DiesReading (s : State) : Event → Prop
  | .clientDies i => ∃ f, (s.client i).pc = .got f ∧ ¬ Blank (s.file f).content
  | _ => False

instance (s : State) : ∀ e : Event, Decidable (DiesReading s e)
  | .step _ => isFalse id
  | .kwatcherDies => isFalse id
  | .clientDies _ => inferInstanceAs (Decidable (∃ _ : Bool, _ ∧ _))

/-! ## A list that is published again -/

/-- The publications are renumbered: what a step does is not changed by the record of them. -/
theorem step_relabel {s t : State} {l : Label} (h : step s l = some t) (p : List (List CStr)) :
    ∃ new, t.published = s.published ++ new ∧
      step { s with published := p } l = some { t with published := p ++ new } := by
  cases step_cases h with
  | lock hpc hfree =>
    refine ⟨[], by simp [State.setOwner], ?_⟩
    simp [step, hpc, hfree, State.setOwner]
  | write names f hk hfit =>
    refine ⟨[names], rfl, ?_⟩
    simp [step, hk, hfit, State.setContent]
  | unlock f hk =>
    refine ⟨[], by simp [State.setOwner], ?_⟩
    simp [step, hk, State.setOwner]
  | clientLock i hpc hfree =>
    refine ⟨[], by simp [State.clientLocked, State.setOwner, State.setClient], ?_⟩
    simp [step, hpc, hfree, State.clientLocked, State.setOwner, State.setClient]
  | clientRead i ok f hpc =>
    refine ⟨[], by rw [(clientRead_same s i f ok).2.2.2, List.append_nil], ?_⟩
    simp only [step, hpc, State.clientRead, List.append_nil]
    split <;> rfl
  | clientClose i f hpc =>
    refine ⟨[], by simp [State.setOwner, State.setPc, State.setClient], ?_⟩
    simp [step, hpc, State.setOwner, State.setPc, State.setClient]
  | clientNullify i f hpc =>
    refine ⟨[], by simp [State.setContent, State.setPc, State.setClient], ?_⟩
    simp [step, hpc, State.setContent, State.setPc, State.setClient]
  | clientUnlock i f hpc =>
    refine ⟨[], by simp [State.setOwner, State.setPc, State.setClient], ?_⟩
    simp [step, hpc, State.setOwner, State.setPc, State.setClient]

namespace Refines

variable {s : State} {m : Mailboxes Bool} {i : Nat}

theorem kwatcherDied (h : Refines s m) : Refines s.kwatcherDied m where
  sent := h.sent
  fits := h.fits
  kwatcher := by simp [State.kwatcherDied, KPc.holds]
  client := by
    intro j f hf
    have hown := h.client j f hf
    simp [State.kwatcherDied, State.released, hown]
  got := h.got
  content := h.content
  fpath := h.fpath
  obtained := h.obtained

/-- The programs that hold a file behind the death of client `i`. -/
theorem kwatcher_clientDied (h : Refines s m) {f : Bool} (hf : s.kpc.holds = some f) :
    ((s.clientDied i).file f).owner = some .kwatcher := by
  have hown := h.kwatcher f hf
  simp [State.clientDied, State.released, State.setClient, hown]

theorem client_clientDied (h : Refines s m) {j : Nat} {f : Bool}
    (hf : ((s.clientDied i).client j).pc.holds = some f) :
    j ≠ i ∧ (s.client j).pc.holds = some f ∧
      ((s.clientDied i).file f).owner = some (.client j) := by
  have hji : j ≠ i := by
    rintro rfl
    simp [State.clientDied, State.setClient, CPc.holds] at hf
  have hold : (s.client j).pc.holds = some f := by
    simpa [State.clientDied, State.setClient, State.released, hji] using hf
  have hown := h.client j f hold
  refine ⟨hji, hold, ?_⟩
  simp [State.clientDied, State.released, State.setClient, hown, hji]

theorem got_clientDied {j : Nat} {f : Bool} (hf : ((s.clientDied i).client j).pc = .got f) :
    j ≠ i ∧ (s.client j).pc = .got f := by
  have hji : j ≠ i := by
    rintro rfl
    simp [State.clientDied, State.setClient] at hf
  exact ⟨hji, by simpa [State.clientDied, State.setClient, State.released, hji] using hf⟩

theorem fpath_clientDied (h : Refines s m) (j : Nat) :
    NoSeparator ((s.clientDied i).client j).fpath := by
  by_cases hji : j = i
  · subst hji
    simpa [State.clientDied, State.setClient] using noSeparator_replicate pathMax
  · simpa [State.clientDied, State.setClient, State.released, hji] using h.fpath j

/-- Nothing is lost or gained when a client dies that has no list in its hands. -/
theorem clientDied (h : Refines s m)
    (hblank : ∀ f, (s.client i).pc = .got f → Blank (s.file f).content) :
    Refines (s.clientDied i) m where
  sent := h.sent
  fits := h.fits
  kwatcher := fun f hf => h.kwatcher_clientDied hf
  client := fun j f hf => (h.client_clientDied hf).2.2
  got := fun j f hf => h.got j f (got_clientDied hf).2
  content := by
    intro f hf
    show CellHolds s.published (s.file f).content (m.cell f)
    by_cases hi : (s.client i).pc = .got f
    · rw [h.got i f hi]
      exact hblank f hi
    · refine h.content f fun j hj => ?_
      by_cases hji : j = i
      · subst hji
        exact hi hj
      · apply hf j
        simpa [State.clientDied, State.setClient, State.released, hji] using hj
  fpath := h.fpath_clientDied
  obtained := h.obtained

/-- The list in the hands of a client that dies is published once more. -/
theorem clientDied_got (h : Refines s m) {f : Bool} (hi : (s.client i).pc = .got f) {k : Nat}
    {names : List CStr} (hk : s.published[k]? = some names)
    (hholds : Holds names (s.file f).content) :
    Refines { s.clientDied i with published := s.published ++ [names] } (m.send f) where
  sent := by simp [h.sent]
  fits := by
    intro ns hns
    rcases List.mem_append.mp hns with hold | hnew
    · exact h.fits ns hold
    · rw [List.mem_singleton.mp hnew]
      exact h.fits names (List.mem_of_getElem? hk)
  kwatcher := fun g hg => h.kwatcher_clientDied hg
  client := fun j g hg => (h.client_clientDied hg).2.2
  got := by
    intro j g hg
    obtain ⟨hji, hj⟩ := got_clientDied hg
    have hgf : g ≠ f := by
      rintro rfl
      exact hji (h.client_unique (by rw [hj]; rfl) (by rw [hi]; rfl))
    rw [Mailboxes.send_cell_other m hgf]
    exact h.got j g hj
  content := by
    intro g hg
    show CellHolds (s.published ++ [names]) (s.file g).content ((m.send f).cell g)
    by_cases hgf : g = f
    · subst hgf
      rw [Mailboxes.send_cell_self, h.sent]
      exact ⟨names, by simp, hholds⟩
    · rw [Mailboxes.send_cell_other m hgf]
      refine (h.content g fun j hj => ?_).append names
      by_cases hji : j = i
      · subst hji
        rw [hi] at hj
        exact hgf (CPc.got.inj hj).symm
      · apply hg j
        simpa [State.clientDied, State.setClient, State.released, hji] using hj
  fpath := h.fpath_clientDied
  obtained := by
    rw [Mailboxes.send_taken]
    show s.obtained.filter _ = _
    rw [h.obtained]
    refine List.map_congr_left fun j hj => ?_
    exact (namesOf_append (h.sent ▸ m.taken_lt j hj) names).symm

end Refines

/-! ## Runs -/

/-- The publications that the mailboxes count, by their numbers. -/
def State.relisted (s : State) (origins : List Nat) : List (List CStr) :=
  origins.map fun k => (s.published[k]?).getD []

/-- The mailboxes carry the messages `origins`: every publication once, and those of `again` once
more. -/
structure Carries (s : State) (again origins : List Nat) (m : Mailboxes Bool) : Prop where
  refines : Refines { s with published := s.relisted origins } m
  stored : ∀ f, ∃ o, CellHolds (s.relisted origins) (s.file f).content o
  all : origins.Perm (List.range s.published.length ++ again)
  again_lt : ∀ k ∈ again, k < s.published.length

theorem carries_init {content : Bool → List UInt8} (h : ∀ f, Blank (content f)) :
    Carries (init content) [] [] .empty where
  refines := refines_init h
  stored := fun f => ⟨none, h f⟩
  all := .refl _
  again_lt := by simp

namespace Carries

variable {s t : State} {again origins : List Nat} {m : Mailboxes Bool}

theorem lt (h : Carries s again origins m) {k : Nat} (hk : k ∈ origins) :
    k < s.published.length := by
  rcases List.mem_append.mp (h.all.mem_iff.mp hk) with hfirst | hagain
  · exact List.mem_range.mp hfirst
  · exact h.again_lt k hagain

/-- A publication gets the next number. -/
theorem relisted_append (h : Carries s again origins m) {new : List (List CStr)}
    (ht : t.published = s.published ++ new) (hnew : new.length ≤ 1) :
    t.relisted (origins ++ List.replicate new.length s.published.length) =
      s.relisted origins ++ new := by
  have hold : t.relisted origins = s.relisted origins := by
    refine List.map_congr_left fun k hk => ?_
    rw [ht, List.getElem?_append_left (h.lt hk)]
  have hlast : t.relisted (List.replicate new.length s.published.length) = new := by
    rcases new with _ | ⟨names, _ | ⟨_, _⟩⟩
    · rfl
    · simp [State.relisted, ht]
    · simp at hnew
  rw [State.relisted, List.map_append]
  exact congrArg₂ _ hold hlast

/-- Every lock file holds a published list, or none. -/
theorem stored_step {l : Label} (hstep : Lockfile.step s l = some t)
    (h : ∀ f, ∃ o, CellHolds s.published (s.file f).content o) (f : Bool) :
    ∃ o, CellHolds t.published (t.file f).content o := by
  obtain ⟨o, ho⟩ := h f
  by_cases hwrite : ∃ names, l = .write names
  · obtain ⟨names, rfl⟩ := hwrite
    cases step_cases hstep with
    | write _ g hk hfit =>
      by_cases hfg : f = g
      · subst hfg
        refine ⟨some s.published.length, names, by simp, ?_⟩
        simpa using holds_locked_write names (s.file f).content
      · exact ⟨o, by simpa [hfg] using ho.append names⟩
  · have hl : ∀ names, l ≠ .write names := fun names hn => hwrite ⟨names, hn⟩
    rcases step_content hstep hl f with hsame | hblank
    · rcases step_published hstep with hpub | ⟨names, hn, _⟩
      · exact ⟨o, by rw [hsame, hpub]; exact ho⟩
      · exact absurd hn (hl names)
    · exact ⟨none, hblank⟩

theorem step (h : Carries s again origins m) {l : Label} (hstep : Lockfile.step s l = some t) :
    ∃ origins' m', Carries t again origins' m' := by
  obtain ⟨new, hpub, hrun⟩ := step_relabel hstep (s.relisted origins)
  have hnew : new.length = 0 ∨ new.length = 1 := by
    rcases step_published hstep with hsame | ⟨names, _, hnames⟩
    · rw [hpub] at hsame
      exact .inl (by simpa using hsame)
    · rw [hpub] at hnames
      rw [List.append_cancel_left hnames]
      exact .inr rfl
  have hlist := h.relisted_append hpub (by omega)
  obtain ⟨m', hrefines, _⟩ := h.refines.step hrun
  refine ⟨_, m', ⟨hlist ▸ hrefines, ?_, ?_, ?_⟩⟩
  · rw [hlist]
    exact stored_step hrun h.stored
  · rw [hpub, List.length_append]
    rcases hnew with hnone | hone
    · simpa [hnone] using h.all
    · rw [hone, List.range_succ, List.append_assoc]
      refine (h.all.append_right _).trans ?_
      rw [List.append_assoc]
      exact List.perm_append_comm.append_left _
  · intro k hk
    rw [hpub, List.length_append]
    exact Nat.lt_add_right _ (h.again_lt k hk)

theorem kwatcherDied (h : Carries s again origins m) : Carries s.kwatcherDied again origins m :=
  ⟨h.refines.kwatcherDied, h.stored, h.all, h.again_lt⟩

theorem clientDied (h : Carries s again origins m) {i : Nat}
    (hblank : ∀ f, (s.client i).pc = .got f → Blank (s.file f).content) :
    Carries (s.clientDied i) again origins m :=
  ⟨h.refines.clientDied hblank, h.stored, h.all, h.again_lt⟩

theorem clientDied_got (h : Carries s again origins m) {i : Nat} {f : Bool}
    (hi : (s.client i).pc = .got f) (hlist : ¬ Blank (s.file f).content) :
    ∃ k, Carries (s.clientDied i) (again ++ [k]) (origins ++ [k]) (m.send f) := by
  obtain ⟨o, ho⟩ := h.stored f
  cases o with
  | none => exact absurd ho hlist
  | some j =>
    obtain ⟨names, hj, hholds⟩ := ho
    obtain ⟨k, hk, hnames⟩ := Option.map_eq_some_iff.mp (List.getElem?_map ▸ hj)
    have hmem := List.mem_of_getElem? hk
    have hlist' : (s.clientDied i).relisted (origins ++ [k]) = s.relisted origins ++ [names] := by
      rw [State.relisted, List.map_append, ← hnames]
      rfl
    refine ⟨k, ⟨?_, ?_, ?_, ?_⟩⟩
    · rw [hlist']
      exact h.refines.clientDied_got hi hj hholds
    · intro g
      obtain ⟨o, ho⟩ := h.stored g
      rw [hlist']
      exact ⟨o, ho.append names⟩
    · rw [← List.append_assoc]
      exact h.all.append_right [k]
    · intro a ha
      rcases List.mem_append.mp ha with hold | hnew
      · exact h.again_lt a hold
      · rw [List.mem_singleton.mp hnew]
        exact h.lt hmem

/-- A step of a living process adds nothing to `again`, and neither does a death but that of a
client with a list in its hands. -/
theorem lifeStep (h : Carries s again origins m) {e : Event} (hstep : Lockfile.lifeStep s e = some t) :
    ∃ again' origins' m', Carries t again' origins' m' ∧
      again'.length = again.length + if DiesReading s e then 1 else 0 := by
  cases e with
  | step l =>
    obtain ⟨origins', m', h'⟩ := h.step hstep
    exact ⟨again, origins', m', h', by simp [DiesReading]⟩
  | kwatcherDies =>
    rw [← Option.some.inj hstep]
    exact ⟨again, origins, m, h.kwatcherDied, by simp [DiesReading]⟩
  | clientDies i =>
    rw [← Option.some.inj hstep]
    by_cases hdies : DiesReading s (.clientDies i)
    · obtain ⟨f, hi, hlist⟩ := hdies
      obtain ⟨k, h'⟩ := h.clientDied_got hi hlist
      exact ⟨_, _, _, h', by rw [if_pos ⟨f, hi, hlist⟩, List.length_append, List.length_singleton]⟩
    · refine ⟨again, origins, m, h.clientDied ?_, by rw [if_neg hdies, add_zero]⟩
      intro f hi
      by_contra hlist
      exact hdies ⟨f, hi, hlist⟩

end Carries

theorem exec_carries {content : Bool → List UInt8} (hblank : ∀ f, Blank (content f))
    {es : List Event} {s : State} (hrun : exec lifeStep (init content) es = some s) :
    ∃ again origins m, Carries s again origins m ∧
      again.length = countAlong lifeStep DiesReading (init content) es := by
  refine exec_invariant_past (I := fun es s => ∃ again origins m, Carries s again origins m ∧
    again.length = countAlong lifeStep DiesReading (init content) es)
    ⟨[], [], .empty, carries_init hblank, rfl⟩ ?_ hrun
  rintro es s e t hpast ⟨again, origins, m, h, hcount⟩ hstep
  obtain ⟨again', origins', m', h', hagain⟩ := h.lifeStep hstep
  exact ⟨again', origins', m', h', by rw [hagain, hcount, countAlong_snoc hpast]⟩

def Event.Clean : Event → Prop
  | .step l => l.Clean
  | _ => True

instance : ∀ e : Event, Decidable e.Clean
  | .step l => inferInstanceAs (Decidable l.Clean)
  | .kwatcherDies => isTrue trivial
  | .clientDies _ => isTrue trivial

theorem exec_lists_clean {content : Bool → List UInt8} {es : List Event} {s : State}
    (hrun : exec lifeStep (init content) es = some s) (hclean : ∀ e ∈ es, e.Clean) :
    ∀ names ∈ s.published, ∀ n ∈ names, Clean n := by
  refine exec_invariant_along (I := fun s => ∀ names ∈ s.published, ∀ n ∈ names, Clean n)
    (C := fun _ e => e.Clean) ?_ (by simp [init]) (along_of_forall hclean) hrun
  intro s e t h he hstep
  cases e with
  | step l =>
    intro names hmem
    rcases step_published hstep with hsame | ⟨new, rfl, hnew⟩
    · exact h names (hsame ▸ hmem)
    · rw [hnew] at hmem
      rcases List.mem_append.mp hmem with hold | hlast
      · exact h names hold
      · rw [List.mem_singleton.mp hlast]
        exact he
  | kwatcherDies =>
    rw [← Option.some.inj hstep]
    exact h
  | clientDies i =>
    rw [← Option.some.inj hstep]
    exact h

/-- Whatever processes die, every list of clean names that a client obtains by `_jitget` is the list
of one publication, and a publication is obtained once, and once more for each client that died
with a list in its hands. -/
theorem obtained_despite_deaths {content : Bool → List UInt8} (hblank : ∀ f, Blank (content f))
    {es : List Event} (hclean : ∀ e ∈ es, e.Clean) {s : State}
    (hrun : exec lifeStep (init content) es = some s) :
    ∃ idx again : List Nat, again.length = countAlong lifeStep DiesReading (init content) es ∧
      idx.Subperm (List.range s.published.length ++ again) ∧
      s.delivered.map some = idx.map fun k => (s.published[k]?).map (·.map CStr.bytes) := by
  obtain ⟨again, origins, m, h, hcount⟩ := exec_carries hblank hrun
  have hsent : m.sent = origins.length := by
    rw [h.refines.sent]
    exact List.length_map _
  have hlt : ∀ j ∈ m.taken, j < origins.length := fun j hj => hsent ▸ m.taken_lt j hj
  refine ⟨m.taken.map fun j => origins.getD j 0, again, hcount, ?_, ?_⟩
  · -- no message is taken twice, so they are some of the origins
    have htaken : m.taken.Subperm (List.range origins.length) :=
      m.nodup.subperm fun j hj => List.mem_range.mpr (hlt j hj)
    have horigins : (List.range origins.length).map (fun j => origins.getD j 0) = origins := by
      apply List.ext_getElem
      · simp
      · intro j hj _
        have hj' : j < origins.length := by simpa using hj
        simp [hj']
    obtain ⟨js, hperm, hsub⟩ := htaken
    have hidx : (m.taken.map fun j => origins.getD j 0).Subperm origins := by
      have hmap := hsub.map fun j => origins.getD j 0
      rw [horigins] at hmap
      exact ⟨_, hperm.map _, hmap⟩
    exact hidx.trans h.all.subperm
  · unfold State.delivered
    have hobtained : s.obtained.filter (· ≠ []) = m.taken.map (namesOf (s.relisted origins)) :=
      h.refines.obtained
    rw [hobtained, List.map_map, List.map_map]
    refine List.map_congr_left fun j hj => ?_
    have hj' := hlt j hj
    have hpub : origins[j] < s.published.length := h.lt (List.getElem_mem hj')
    have hmem : s.published[origins[j]] ∈ s.published := List.getElem_mem hpub
    have hfits : FitsTables s.published[origins[j]] := by
      apply h.refines.fits
      exact List.mem_map.mpr ⟨origins[j], List.getElem_mem hj', by simp [hpub]⟩
    have hread := readBack_clean hfits (exec_lists_clean hrun hclean _ hmem)
    simp [namesOf, State.relisted, hj', hpub, hread]

theorem nul_free_oneName : (0 : UInt8) ∉ [97] := by decide

def oneName : CStr := ⟨[97], nul_free_oneName⟩

/-- Client 0 dies with the list in its hands, kwatcher when it waits; client 1 gets the list. -/
def readTwice : List Event :=
  [.step .lock, .step (.write [oneName]), .step .unlock, .step .lock,
    .step (.clientLock 0), .step (.clientRead 0 true), .clientDies 0, .kwatcherDies,
    .step (.clientLock 1), .step (.clientRead 1 true)]

theorem obtained_despite_deaths_two :
    ∃ s, exec lifeStep (init fun _ => []) readTwice = some s ∧ s.delivered = [[[97]], [[97]]] ∧
      countAlong lifeStep DiesReading (init fun _ => []) readTwice = 1 ∧
      ∃ idx again : List Nat,
        again.length = countAlong lifeStep DiesReading (init fun _ => []) readTwice ∧
        idx.Subperm (List.range s.published.length ++ again) ∧
        s.delivered.map some = idx.map fun k => (s.published[k]?).map (·.map CStr.bytes) :=
  ⟨_, rfl, by decide, by decide, @obtained_despite_deaths (fun _ => []) (fun _ => rfl) readTwice
    (by decide) _ rfl⟩

end JitDt.Lockfile
