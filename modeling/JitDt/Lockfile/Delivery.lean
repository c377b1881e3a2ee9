import JitDt.Lib.Mailbox
import JitDt.Lockfile.Names

/-!
# The lock files as mailboxes

The two lock files refine two mailboxes: a write sends a message, the read of a client
takes it. The bytes of a file, the owner of its lock and the programs of all processes
are tied to the mailboxes by `Refines`.
-/

namespace JitDt.Lockfile

set_option autoImplicit false

open Machine

def KPc.holds : KPc → Option Bool
  | .lock => none
  | .held f => some f
  | .written f => some f

def CPc.holds : CPc → Option Bool
  | .idle => none
  | .locked f => some f
  | .failed f => some f
  | .got f => some f
  | .nullified f => some f

/-- The bytes of a lock file whose mailbox holds message `k`, or nothing. -/
def CellHolds (published : List (List CStr)) (content : List UInt8) : Option Nat → Prop
  | none => Blank content
  | some k => ∃ names, published[k]? = some names ∧ Holds names content

/-- What a client makes of message `k`. -/
def namesOf (published : List (List CStr)) (k : Nat) : List (List UInt8) :=
  readBack ((published[k]?).getD [])

structure Refines (s : State) (m : Mailboxes Bool) : Prop where
  sent : m.sent = s.published.length
  fits : ∀ names ∈ s.published, FitsTables names
  kwatcher : ∀ f, s.kpc.holds = some f → (s.file f).owner = some .kwatcher
  client : ∀ i f, (s.client i).pc.holds = some f → (s.file f).owner = some (.client i)
  got : ∀ i f, (s.client i).pc = .got f → m.cell f = none
  content : ∀ f, (∀ i, (s.client i).pc ≠ .got f) →
    CellHolds s.published (s.file f).content (m.cell f)
  fpath : ∀ i, NoSeparator (s.client i).fpath
  obtained : s.obtained.filter (· ≠ []) = m.taken.map (namesOf s.published)

/-- What a step means to the mailboxes. -/
inductive Move (s : State) (l : Label) (m : Mailboxes Bool) : Mailboxes Bool → Prop where
  | stay (hl : ∀ names, l ≠ .write names) : Move s l m m
  | send (f : Bool) (names : List CStr) (hl : l = .write names) (hk : s.kpc = .held f) :
      Move s l m (m.send f)
  | take (i : Nat) (f : Bool) (k : Nat) (h : m.cell f = some k) (hl : l = .clientRead i true)
      (hpc : (s.client i).pc = .locked f) (hblank : ¬ Blank (s.file f).content) :
      Move s l m (m.take f k h)
  | discard (i : Nat) (f : Bool) (ok : Bool) (hl : l = .clientRead i ok)
      (hpc : (s.client i).pc = .locked f) : Move s l m (m.discard f)

section Updates
variable (s : State) (f g : Bool) (o : Option Owner) (c : List UInt8)

@[simp] theorem setOwner_content : ((s.setOwner f o).file g).content = (s.file g).content := by
  by_cases h : g = f
  · subst h
    simp [State.setOwner]
  · simp [State.setOwner, h]

@[simp] theorem setOwner_owner :
    ((s.setOwner f o).file g).owner = if g = f then o else (s.file g).owner := by
  by_cases h : g = f
  · subst h
    simp [State.setOwner]
  · simp [State.setOwner, h]

@[simp] theorem setContent_owner : ((s.setContent f c).file g).owner = (s.file g).owner := by
  by_cases h : g = f
  · subst h
    simp [State.setContent]
  · simp [State.setContent, h]

@[simp] theorem setContent_content :
    ((s.setContent f c).file g).content = if g = f then c else (s.file g).content := by
  by_cases h : g = f
  · subst h
    simp [State.setContent]
  · simp [State.setContent, h]

end Updates

theorem holds_locked_write (names : List CStr) (content : List UInt8) :
    Holds names (locked_write content (lockedf names)) :=
  ⟨content.drop ((lockedf names).length + 1), by simp [locked_write]⟩

theorem CellHolds.append {published : List (List CStr)} {content : List UInt8} {o : Option Nat}
    (h : CellHolds published content o) (names : List CStr) :
    CellHolds (published ++ [names]) content o := by
  cases o with
  | none => exact h
  | some k =>
    obtain ⟨ns, hk, hns⟩ := h
    have hlt : k < published.length := (List.getElem?_eq_some_iff.mp hk).1
    exact ⟨ns, by rw [List.getElem?_append_left hlt, hk], hns⟩

theorem namesOf_append {published : List (List CStr)} {k : Nat} (hk : k < published.length)
    (names : List CStr) : namesOf (published ++ [names]) k = namesOf published k := by
  rw [namesOf, namesOf, List.getElem?_append_left hk]

theorem noSeparator_replicate (n : Nat) : NoSeparator (List.replicate (n + 1) 0) := by
  simp [NoSeparator, cstrOf, List.replicate_succ]

theorem refines_init {content : Bool → List UInt8} (h : ∀ f, Blank (content f)) :
    Refines (init content) .empty where
  sent := rfl
  fits := by simp [init]
  kwatcher := by simp [init, KPc.holds]
  client := by simp [init, CPc.holds]
  got := by simp [init]
  content := fun f _ => h f
  fpath := fun _ => noSeparator_replicate pathMax
  obtained := rfl

namespace Refines

variable {s s' : State} {m : Mailboxes Bool}

theorem client_unique (h : Refines s m) {i j : Nat} {f : Bool}
    (hi : (s.client i).pc.holds = some f) (hj : (s.client j).pc.holds = some f) : i = j := by
  have := (h.client i f hi).symm.trans (h.client j f hj)
  simpa using this

theorem not_held_of_kwatcher (h : Refines s m) {i : Nat} {f : Bool}
    (hk : s.kpc.holds = some f) : (s.client i).pc.holds ≠ some f := by
  intro hi
  have := (h.kwatcher f hk).symm.trans (h.client i f hi)
  simp at this

theorem lock (h : Refines s m) (hstep : step s .lock = some s') : Refines s' m := by
  cases step_cases hstep with
  | lock hpc hfree =>
    refine ⟨h.sent, h.fits, ?_, ?_, h.got, ?_, h.fpath, h.obtained⟩
    · intro f hf
      obtain rfl : s.ticktack = f := by simpa [KPc.holds] using hf
      simp
    · intro i f hf
      have hold := h.client i f hf
      have hne : f ≠ s.ticktack := by
        rintro rfl
        rw [hfree] at hold
        cases hold
      simpa [hne] using hold
    · intro f hf
      show CellHolds s.published _ _
      simpa using h.content f hf

theorem write (h : Refines s m) {names : List CStr} (hstep : step s (.write names) = some s') :
    ∃ f, s.kpc = .held f ∧ s'.kpc = .written f ∧ s'.ticktack = s.ticktack ∧
      Refines s' (m.send f) := by
  cases step_cases hstep with
  | write _ f hk hfit =>
    have hheld : s.kpc.holds = some f := by rw [hk]; rfl
    refine ⟨f, hk, rfl, rfl, ?_, ?_, ?_, ?_, ?_, ?_, h.fpath, ?_⟩
    · simp [h.sent]
    · intro ns hns
      rcases List.mem_append.mp hns with hold | hnew
      · exact h.fits ns hold
      · rwa [List.mem_singleton.mp hnew]
    · intro g hg
      obtain rfl : f = g := by simpa [KPc.holds] using hg
      simpa using h.kwatcher f hheld
    · intro i g hg
      simpa using h.client i g hg
    · intro i g hg
      have hgf : g ≠ f := by
        rintro rfl
        exact h.not_held_of_kwatcher hheld (i := i) (by
          have hpc : (s.client i).pc = .got g := hg
          rw [hpc]
          rfl)
      rw [Mailboxes.send_cell_other m hgf]
      exact h.got i g hg
    · intro g hg
      by_cases hgf : g = f
      · subst hgf
        rw [Mailboxes.send_cell_self, h.sent]
        refine ⟨names, by simp, ?_⟩
        simpa using holds_locked_write names (s.file g).content
      · rw [Mailboxes.send_cell_other m hgf]
        simpa [hgf] using (h.content g hg).append names
    · rw [Mailboxes.send_taken]
      show s.obtained.filter _ = _
      rw [h.obtained]
      refine List.map_congr_left fun k hk => ?_
      exact (namesOf_append (h.sent ▸ m.taken_lt k hk) names).symm

theorem unlock (h : Refines s m) (hstep : step s .unlock = some s') :
    s'.kpc = .lock ∧ s'.ticktack = s.ticktack ∧ Refines s' m := by
  cases step_cases hstep with
  | unlock f hk =>
    have hheld : s.kpc.holds = some f := by rw [hk]; rfl
    refine ⟨rfl, rfl, h.sent, h.fits, by simp [KPc.holds], ?_, h.got, ?_, h.fpath,
      h.obtained⟩
    · intro i g hg
      have hne : g ≠ f := by
        rintro rfl
        exact h.not_held_of_kwatcher hheld hg
      simpa [hne] using h.client i g hg
    · intro g hg
      show CellHolds s.published _ _
      simpa using h.content g hg

end Refines

/-- Client `i` takes, keeps or leaves file `f`; nothing else changes. -/
structure ClientMove (s s' : State) (i : Nat) (f : Bool) (lf : LockFile) (cl : Client) : Prop where
  file : s'.file = Function.update s.file f lf
  client : s'.client = Function.update s.client i cl
  kpc : s'.kpc = s.kpc
  published : s'.published = s.published
  before : (s.client i).pc.holds = some f ∨
    ((s.client i).pc.holds = none ∧ (s.file f).owner = none)
  after : (cl.pc.holds = some f ∧ lf.owner = some (.client i)) ∨
    (cl.pc.holds = none ∧ lf.owner = none)

/-- The mailboxes after a move of a client, from what it did to its own file. -/
theorem Refines.clientMove {s s' : State} {m m' : Mailboxes Bool} {i : Nat} {f : Bool}
    {lf : LockFile} {cl : Client} (h : Refines s m) (hmove : ClientMove s s' i f lf cl)
    (hsent : m'.sent = m.sent) (hcell : ∀ g, g ≠ f → m'.cell g = m.cell g)
    (hgot : cl.pc = .got f → m'.cell f = none)
    (hcontent : cl.pc ≠ .got f → CellHolds s.published lf.content (m'.cell f))
    (hfpath : NoSeparator cl.fpath)
    (hobtained : s'.obtained.filter (· ≠ []) = m'.taken.map (namesOf s.published)) :
    Refines s' m' := by
  -- nobody else holds file `f`
  have hk : ∀ g, s.kpc.holds = some g → g ≠ f := by
    rintro g hg rfl
    rcases hmove.before with hheld | ⟨_, hfree⟩
    · exact h.not_held_of_kwatcher hg hheld
    · have := h.kwatcher g hg
      rw [hfree] at this
      cases this
  have hc : ∀ j g, j ≠ i → (s.client j).pc.holds = some g → g ≠ f := by
    rintro j g hj hg rfl
    rcases hmove.before with hheld | ⟨_, hfree⟩
    · exact hj (h.client_unique hg hheld)
    · have := h.client j g hg
      rw [hfree] at this
      cases this
  have hi : ∀ g, cl.pc.holds = some g → g = f ∧ lf.owner = some (.client i) := by
    intro g hg
    rcases hmove.after with ⟨hheld, howner⟩ | ⟨hnone, _⟩
    · rw [hheld] at hg
      exact ⟨(Option.some.inj hg).symm, howner⟩
    · rw [hnone] at hg
      cases hg
  refine ⟨hsent.trans (h.sent.trans (by rw [hmove.published])), ?_, ?_, ?_, ?_, ?_, ?_, ?_⟩
  · rw [hmove.published]
    exact h.fits
  · intro g hg
    rw [hmove.kpc] at hg
    rw [hmove.file, Function.update_of_ne (hk g hg)]
    exact h.kwatcher g hg
  · intro j g hg
    rw [hmove.client] at hg
    rw [hmove.file]
    by_cases hj : j = i
    · subst hj
      rw [Function.update_self] at hg
      obtain ⟨rfl, howner⟩ := hi g hg
      rw [Function.update_self, howner]
    · rw [Function.update_of_ne hj] at hg
      rw [Function.update_of_ne (hc j g hj hg)]
      exact h.client j g hg
  · intro j g hg
    rw [hmove.client] at hg
    by_cases hj : j = i
    · subst hj
      rw [Function.update_self] at hg
      obtain ⟨rfl, _⟩ := hi g (by rw [hg]; rfl)
      exact hgot hg
    · rw [Function.update_of_ne hj] at hg
      rw [hcell g (hc j g hj (by rw [hg]; rfl))]
      exact h.got j g hg
  · intro g hg
    rw [hmove.client] at hg
    rw [hmove.published, hmove.file]
    by_cases hgf : g = f
    · subst hgf
      have hown := hg i
      rw [Function.update_self] at hown
      rw [Function.update_self]
      exact hcontent hown
    · rw [Function.update_of_ne hgf, hcell g hgf]
      refine h.content g fun j => ?_
      by_cases hj : j = i
      · subst hj
        intro hpc
        rcases hmove.before with hheld | ⟨hnone, _⟩
        · rw [hpc] at hheld
          exact hgf (Option.some.inj hheld)
        · rw [hpc] at hnone
          cases hnone
      · have := hg j
        rwa [Function.update_of_ne hj] at this
  · intro j
    rw [hmove.client]
    by_cases hj : j = i
    · subst hj
      rwa [Function.update_self]
    · rw [Function.update_of_ne hj]
      exact h.fpath j
  · rw [hmove.published]
    exact hobtained

namespace Refines

variable {s s' : State} {m : Mailboxes Bool} {i : Nat}

theorem clientLock (h : Refines s m) (hstep : step s (.clientLock i) = some s') :
    Refines s' m := by
  cases step_cases hstep with
  | clientLock _ hpc hfree =>
    have hidle : ∀ g, (s.client i).pc ≠ .got g := by simp [hpc]
    refine h.clientMove (f := (s.client i).ticktack) (i := i) ⟨rfl, rfl, rfl, rfl,
      Or.inr ⟨by rw [hpc]; rfl, hfree⟩, Or.inl ⟨rfl, rfl⟩⟩ rfl (fun _ _ => rfl) (by simp)
      (fun _ => h.content _ fun j hj => ?_) (h.fpath i) h.obtained
    have := h.client j _ (by rw [hj]; rfl)
    rw [hfree] at this
    cases this

theorem release (h : Refines s m) {f : Bool} (hheld : (s.client i).pc.holds = some f)
    (hgot : (s.client i).pc ≠ .got f) : Refines ((s.setOwner f none).setPc i .idle) m := by
  refine h.clientMove (f := f) (i := i) ⟨rfl, rfl, rfl, rfl, Or.inl hheld, Or.inr ⟨rfl, rfl⟩⟩ rfl
    (fun _ _ => rfl) (by simp) (fun _ => h.content f fun j hj => ?_) (h.fpath i) h.obtained
  have hji := h.client_unique (by rw [hj]; rfl) hheld
  exact hgot (hji ▸ hj)

theorem clientClose (h : Refines s m) (hstep : step s (.clientClose i) = some s') :
    Refines s' m := by
  cases step_cases hstep with
  | clientClose _ f hpc => exact h.release (by rw [hpc]; rfl) (by simp [hpc])

theorem clientUnlock (h : Refines s m) (hstep : step s (.clientUnlock i) = some s') :
    Refines s' m := by
  cases step_cases hstep with
  | clientUnlock _ f hpc => exact h.release (by rw [hpc]; rfl) (by simp [hpc])

theorem clientNullify (h : Refines s m) (hstep : step s (.clientNullify i) = some s') :
    Refines s' m := by
  cases step_cases hstep with
  | clientNullify _ f hpc =>
    have hheld : (s.client i).pc.holds = some f := by rw [hpc]; rfl
    refine h.clientMove (f := f) (i := i) ⟨rfl, rfl, rfl, rfl, Or.inl hheld,
      Or.inl ⟨rfl, h.client i f hheld⟩⟩ rfl (fun _ _ => rfl) (by simp) (fun _ => ?_) (h.fpath i)
      h.obtained
    rw [h.got i f hpc]
    exact rfl

theorem content_of_locked (h : Refines s m) {f : Bool} (hpc : (s.client i).pc = .locked f) :
    CellHolds s.published (s.file f).content (m.cell f) := by
  refine h.content f fun j hj => ?_
  obtain rfl := h.client_unique (i := j) (j := i) (f := f) (by rw [hj]; rfl) (by rw [hpc]; rfl)
  rw [hpc] at hj
  cases hj

theorem read_move (h : Refines s m) {f : Bool} (hpc : (s.client i).pc = .locked f)
    (pc : CPc) {b : List UInt8} (hheld : pc.holds = some f) {o : List (List (List UInt8))} :
    ClientMove s { s.setClient i { s.client i with fpath := b, pc := pc } with obtained := o } i f
      (s.file f) { s.client i with fpath := b, pc := pc } where
  file := (Function.update_eq_self f s.file).symm
  client := rfl
  kpc := rfl
  published := rfl
  before := Or.inl (by rw [hpc]; rfl)
  after := Or.inl ⟨hheld, h.client i f (by rw [hpc]; rfl)⟩

theorem clientRead_take (h : Refines s m) {f ok : Bool} (hpc : (s.client i).pc = .locked f)
    {files : List (List UInt8)} (hne : files ≠ [])
    (hread : (readNames (s.file f).content ok (s.client i).fpath).2 = some files) :
    ok = true ∧ ¬ Blank (s.file f).content ∧
      ∃ k, m.cell f = some k ∧ files = namesOf s.published k := by
  have hblank : ¬ (ok = true → Blank (s.file f).content) := by
    intro hb
    rcases readNames_blank (h.fpath i) hb with hnone | hnil
    · rw [hnone] at hread
      cases hread
    · rw [hnil] at hread
      exact hne (Option.some.inj hread).symm
  obtain ⟨hok, hnb⟩ := Classical.not_imp.mp hblank
  subst hok
  refine ⟨rfl, hnb, ?_⟩
  have hcontent := h.content_of_locked hpc
  cases hk : m.cell f with
  | none =>
    rw [hk] at hcontent
    exact absurd hcontent hnb
  | some k =>
    rw [hk] at hcontent
    obtain ⟨names, hnames, hholds⟩ := hcontent
    refine ⟨k, rfl, ?_⟩
    rw [readNames_holds (h.fits names (List.mem_of_getElem? hnames)) hholds] at hread
    split at hread
    · cases hread
    · rw [← Option.some.inj hread]
      simp [namesOf, hnames]

/-- The read of a client takes the message of its file, loses it, or leaves it. -/
theorem clientRead (h : Refines s m) {ok : Bool} (hstep : step s (.clientRead i ok) = some s') :
    ∃ m', Refines s' m' ∧ Move s (.clientRead i ok) m m' := by
  cases step_cases hstep with
  | clientRead _ _ f hpc =>
    unfold State.clientRead
    have hbuf := readNames_buffer (s.file f).content ok (s.client i).fpath
    rcases hread : readNames (s.file f).content ok (s.client i).fpath with ⟨b, _ | _ | ⟨n, files⟩⟩
    · rw [hread] at hbuf
      exact ⟨m, h.clientMove (h.read_move hpc (.failed f) rfl) rfl (fun _ _ => rfl)
        (by simp) (fun _ => h.content_of_locked hpc) hbuf h.obtained, .stay (by simp)⟩
    · rw [hread] at hbuf
      exact ⟨m.discard f, h.clientMove (h.read_move hpc (.got f) rfl) rfl
        (fun g hg => Mailboxes.discard_cell_other m hg) (fun _ => Mailboxes.discard_cell_self m f)
        (fun hgot => absurd rfl hgot) hbuf (by simpa using h.obtained), .discard i f ok rfl hpc⟩
    · rw [hread] at hbuf
      obtain ⟨rfl, hnb, k, hk, hfiles⟩ := h.clientRead_take hpc (List.cons_ne_nil n files)
        (by rw [hread])
      refine ⟨m.take f k hk, h.clientMove (h.read_move hpc (.got f) rfl) rfl
        (fun g hg => Mailboxes.take_cell_other m hk hg)
        (fun _ => Mailboxes.take_cell_self m f k hk) (fun hgot => absurd rfl hgot) hbuf ?_,
        .take i f k hk rfl hpc hnb⟩
      rw [Mailboxes.take_taken, List.map_append, List.filter_append, h.obtained, hfiles]
      simp [← hfiles]

theorem step (h : Refines s m) {l : Label} (hstep : Lockfile.step s l = some s') :
    ∃ m', Refines s' m' ∧ Move s l m m' := by
  cases l with
  | lock => exact ⟨m, h.lock hstep, .stay (by simp)⟩
  | write names =>
    obtain ⟨f, hk, _, _, h'⟩ := h.write hstep
    exact ⟨m.send f, h', .send f names rfl hk⟩
  | unlock => exact ⟨m, (h.unlock hstep).2.2, .stay (by simp)⟩
  | clientLock i => exact ⟨m, h.clientLock hstep, .stay (by simp)⟩
  | clientRead i ok => exact h.clientRead hstep
  | clientClose i => exact ⟨m, h.clientClose hstep, .stay (by simp)⟩
  | clientNullify i => exact ⟨m, h.clientNullify hstep, .stay (by simp)⟩
  | clientUnlock i => exact ⟨m, h.clientUnlock hstep, .stay (by simp)⟩

end Refines

/-- The lists the clients have obtained, the empty ones apart. -/
def State.delivered (s : State) : List (List (List UInt8)) := s.obtained.filter (· ≠ [])

theorem exec_refines {content : Bool → List UInt8} (hblank : ∀ f, Blank (content f))
    {ls : List Label} {s : State} (hrun : exec step (init content) ls = some s) :
    ∃ m, Refines s m := by
  refine exec_invariant (I := fun s => ∃ m, Refines s m) ?_ ⟨.empty, refines_init hblank⟩ hrun
  rintro s l t ⟨m, h⟩ hstep
  obtain ⟨m', h', _⟩ := h.step hstep
  exact ⟨m', h'⟩

/-- kwatcher has written nothing but names without separators and line ends. -/
def Label.Clean : Label → Prop
  | .write names => ∀ n ∈ names, Lockfile.Clean n
  | _ => True

instance : ∀ l : Label, Decidable l.Clean
  | .write names => inferInstanceAs (Decidable (∀ n ∈ names, Lockfile.Clean n))
  | .lock | .unlock | .clientLock _ | .clientRead _ _ | .clientClose _ | .clientNullify _
  | .clientUnlock _ => isTrue trivial

def Label.ByClient : Label → Prop
  | .lock | .write _ | .unlock => False
  | _ => True

/-- A client leaves the program of kwatcher and its publications alone. -/
theorem step_byClient {s t : State} {l : Label} (hl : l.ByClient) (h : step s l = some t) :
    t.kpc = s.kpc ∧ t.ticktack = s.ticktack ∧ t.published = s.published := by
  cases step_cases h with
  | lock => exact hl.elim
  | write => exact hl.elim
  | unlock => exact hl.elim
  | clientRead i ok f _ =>
    obtain ⟨_, hk, ht, hp⟩ := clientRead_same s i f ok
    exact ⟨hk, ht, hp⟩
  | clientLock | clientClose | clientNullify | clientUnlock => exact ⟨rfl, rfl, rfl⟩

/-- No step but a write puts names into a lock file. -/
theorem step_content {s t : State} {l : Label} (h : step s l = some t)
    (hl : ∀ names, l ≠ .write names) (f : Bool) :
    (t.file f).content = (s.file f).content ∨ Blank (t.file f).content := by
  cases step_cases h with
  | write names => exact absurd rfl (hl names)
  | clientNullify i g _ =>
    show ((s.setContent g _).file f).content = _ ∨ Blank ((s.setContent g _).file f).content
    rw [setContent_content]
    split
    · exact Or.inr rfl
    · exact Or.inl rfl
  | clientRead i ok g _ =>
    left
    rw [(clientRead_same s i g ok).1]
  | lock | unlock | clientLock | clientClose | clientUnlock =>
    left
    exact setOwner_content _ _ _ _

theorem step_published {s t : State} {l : Label} (h : step s l = some t) :
    t.published = s.published ∨ ∃ names, l = .write names ∧ t.published = s.published ++ [names] := by
  cases step_cases h with
  | write names => exact Or.inr ⟨names, rfl, rfl⟩
  | clientRead i ok f _ => exact Or.inl (clientRead_same s i f ok).2.2.2
  | lock | unlock | clientLock | clientClose | clientNullify | clientUnlock => exact Or.inl rfl

theorem exec_published_clean {content : Bool → List UInt8} {ls : List Label} {s : State}
    (hrun : exec step (init content) ls = some s) (hclean : ∀ l ∈ ls, l.Clean) :
    ∀ names ∈ s.published, ∀ n ∈ names, Clean n := by
  refine exec_invariant_along (I := fun s => ∀ names ∈ s.published, ∀ n ∈ names, Clean n)
    (C := fun _ l => l.Clean) ?_ (by simp [init]) (along_of_forall hclean) hrun
  intro s l t h hl hstep names hmem
  rcases step_published hstep with hsame | ⟨new, rfl, hnew⟩
  · exact h names (hsame ▸ hmem)
  · rw [hnew] at hmem
    rcases List.mem_append.mp hmem with hold | hlast
    · exact h names hold
    · rw [List.mem_singleton.mp hlast]
      exact hl

/-! ## At most once -/

/-- Every list of clean names that a client obtains is the list of one publication, and
no two clients obtain the same publication. -/
theorem obtained_once {content : Bool → List UInt8} (hblank : ∀ f, Blank (content f))
    {ls : List Label} (hclean : ∀ l ∈ ls, l.Clean) {s : State}
    (hrun : exec step (init content) ls = some s) :
    ∃ idx : List Nat, idx.Nodup ∧ s.delivered.map some =
      idx.map fun k => (s.published[k]?).map (·.map CStr.bytes) := by
  obtain ⟨m, h⟩ := exec_refines hblank hrun
  refine ⟨m.taken, m.nodup, ?_⟩
  unfold State.delivered
  rw [h.obtained, List.map_map]
  refine List.map_congr_left fun k hk => ?_
  have hlt : k < s.published.length := h.sent ▸ m.taken_lt k hk
  have hmem : s.published[k] ∈ s.published := List.getElem_mem hlt
  have hread := readBack_clean (h.fits _ hmem) (exec_published_clean hrun hclean _ hmem)
  simp [namesOf, List.getElem?_eq_getElem hlt, hread]

def onePublication (names : List CStr) : List Label :=
  [.lock, .write names, .unlock, .clientLock 0, .clientRead 0 true, .clientNullify 0,
    .clientUnlock 0]

theorem obtained_once_run :
    ∃ s, exec step (init fun _ => []) (onePublication [⟨[97], by decide⟩, ⟨[98], by decide⟩]) =
        some s ∧ s.delivered = [[[97], [98]]] ∧
      ∃ idx : List Nat, idx.Nodup ∧ s.delivered.map some =
        idx.map fun k => (s.published[k]?).map (·.map CStr.bytes) :=
  ⟨_, rfl, by decide, @obtained_once (fun _ => []) (fun _ => rfl)
    (onePublication [⟨[97], by decide⟩, ⟨[98], by decide⟩]) (by decide) _ rfl⟩

/-- The name `a;b` reaches the client as two names. -/
theorem obtained_differs :
    ∃ s, exec step (init fun _ => []) (onePublication [⟨[97, 59, 98], by decide⟩]) = some s ∧
      s.published = [[⟨[97, 59, 98], by decide⟩]] ∧ s.delivered = [[[97], [98]]] ∧
      ¬ ∃ idx : List Nat, idx.Nodup ∧ s.delivered.map some =
        idx.map fun k => (s.published[k]?).map (·.map CStr.bytes) := by
  obtain ⟨s, hs, hpub, hdel⟩ : ∃ s, exec step (init fun _ => [])
      (onePublication [⟨[97, 59, 98], by decide⟩]) = some s ∧
        s.published = [[⟨[97, 59, 98], by decide⟩]] ∧ s.delivered = [[[97], [98]]] :=
    ⟨_, rfl, rfl, by decide⟩
  refine ⟨s, hs, hpub, hdel, ?_⟩
  rintro ⟨idx, _, heq⟩
  rw [hdel, hpub] at heq
  have hmem : some [[97], [98]] ∈ List.map some [[([97] : List UInt8), [98]]] := List.mem_cons_self
  rw [heq] at hmem
  obtain ⟨k, _, hk⟩ := List.mem_map.mp hmem
  cases k with
  | zero => exact absurd hk (by decide)
  | succ k => simp at hk

end JitDt.Lockfile
