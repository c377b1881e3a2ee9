import JitDt.Lockfile.Waiting

/-!
# What the calls of jitkclient.c are given

The two lock files are mailboxes for `_jitopen` as they are for `_jitget`: the first read of a
message takes it, and the lock is kept until four zero bytes are in its place. A message whose file
`_jitopen` cannot open stays where it is, behind a lock that nobody gives back.
-/

namespace JitDt.Lockfile.Sessions

set_option autoImplicit false

open Machine

/-- The result of a call is that of publication `k`: all its names, or its file of one type. -/
def Obtains (published : List (List CStr)) (k : Nat) : Obtained → Prop
  | .files names => ∃ ns, published[k]? = some ns ∧ names = ns.map CStr.bytes
  | .file type name => ∃ ns, published[k]? = some ns ∧ (ns[type]?).map CStr.bytes = some name

/-- The results of the calls, the empty lists apart. -/
def State.delivered (s : State) : List Obtained := s.obtained.filter (· ≠ .files [])

/-- The process has taken the message out of the lock file that it holds. -/
def Process.Reads (c : Process) (f : Bool) : Prop := c.pc = .got f ∨ ∃ fd, c.lckfds fd = some f

theorem Process.Reads.holds {c : Process} {f : Bool} (h : c.Reads f) : c.holds f :=
  h.imp (fun hpc => by rw [hpc]; rfl) id

/-- The lock files are two mailboxes. -/
structure Carries (s : State) (m : Mailboxes Bool) : Prop where
  sent : m.sent = s.published.length
  fits : ∀ names ∈ s.published, FitsTables names
  clean : ∀ names ∈ s.published, ∀ n ∈ names, Clean n
  taken : ∀ i f, (s.process i).Reads f → m.cell f = none
  content : ∀ f, (∀ i, ¬ (s.process i).Reads f) →
    CellHolds s.published (s.file f).content (m.cell f)
  fpath : ∀ i, NoSeparator (s.process i).fpath
  obtained : List.Forall₂ (fun o k => Obtains s.published k o) s.delivered m.taken

def Label.Clean : Label → Prop
  | .write names => ∀ n ∈ names, Lockfile.Clean n
  | _ => True

instance : ∀ l : Label, Decidable l.Clean
  | .write names => inferInstanceAs (Decidable (∀ n ∈ names, Lockfile.Clean n))
  | .lock | .unlock | .call _ _ | .clientLock _ | .clientRead _ _ _ | .clientClose _
  | .clientNullify _ | .clientUnlock _ | .jitclose _ _ => isTrue trivial

theorem Obtains.append {published : List (List CStr)} {k : Nat} {o : Obtained}
    (h : Obtains published k o) (names : List CStr) : Obtains (published ++ [names]) k o := by
  have hget : ∀ {ns}, published[k]? = some ns → (published ++ [names])[k]? = some ns := by
    intro ns hns
    rw [List.getElem?_append_left (List.getElem?_eq_some_iff.mp hns).1, hns]
  cases o with
  | files _ =>
    obtain ⟨ns, hns, heq⟩ := h
    exact ⟨ns, hget hns, heq⟩
  | file _ _ =>
    obtain ⟨ns, hns, heq⟩ := h
    exact ⟨ns, hget hns, heq⟩

theorem carries_init {content : Bool → List UInt8} (h : ∀ f, Blank (content f)) :
    Carries (init content) .empty where
  sent := rfl
  fits := nofun
  clean := nofun
  taken := fun _ _ _ => rfl
  content := fun f _ => h f
  fpath := fun _ => noSeparator_replicate pathMax
  obtained := .nil

/-! ## The buffer of `_jitopen` -/

theorem jitopen_buffer {content fpath : List UInt8} (h : NoSeparator fpath) (ok : Bool) (type : Nat)
    (disk : Disk) : NoSeparator (_jitopen content ok fpath type disk).fpath := by
  unfold _jitopen
  simp only
  split
  · rename_i hsz
    -- nothing was read, so the buffer has what it had
    have hsame : received content ok fpath = fpath := by
      unfold received
      cases ok with
      | false => rfl
      | true =>
        have hnil : content.take pathMax = [] := by
          apply List.eq_nil_of_length_eq_zero
          simpa [locked_read] using hsz
        rw [if_pos rfl, hnil]
        rfl
    show NoSeparator (locked_read content ok fpath).2
    unfold NoSeparator
    rw [locked_read_string, hsame]
    exact fun hmem => h (firstLine_subset _ hmem)
  · split
    · rename_i hzero
      show NoSeparator (locked_read content ok fpath).2
      unfold NoSeparator
      rw [cstrOf_eq_nil_iff.mpr hzero]
      exact List.not_mem_nil
    · exact septype_noSeparator _

/-- What lies in a mailbox can be read, and is not blank. -/
theorem not_blank_of_read {content : List UInt8} {ok : Bool} (h : ¬ NothingRead content ok) :
    ¬ Blank content := by
  intro hblank
  apply h
  right
  rw [cstrOf_eq_nil_iff.mpr hblank]
  rfl

theorem exists_message {published : List (List CStr)} {content : List UInt8}
    {o : Option Nat} (h : CellHolds published content o) (hblank : ¬ Blank content) :
    ∃ k names, o = some k ∧ published[k]? = some names ∧ Holds names content := by
  cases o with
  | none => exact absurd h hblank
  | some k =>
    obtain ⟨names, hnames, hholds⟩ := h
    exact ⟨k, names, rfl, hnames, hholds⟩

namespace Carries

variable {s t : State} {m m' : Mailboxes Bool} {i : Nat} {f : Bool} {o : Option Owner} {c : Process}

theorem not_reads_of_owner (hl : Locked s) {p : Owner} (hp : (s.file f).owner = some p) {j : Nat}
    (hj : p ≠ .client j) : ¬ (s.process j).Reads f := by
  intro hreads
  have hown := hl.owner (o := .client j) hreads.holds
  rw [hp] at hown
  exact hj (Option.some.inj hown)

/-- What process `i` does with the message of the lock file it holds. -/
theorem acts (h : Carries s m) (hl : Locked s) (ha : Acts s t i f o c) (hsent : m'.sent = m.sent)
    (hcell : ∀ g, g ≠ f → m'.cell g = m.cell g)
    (hother : ∀ g, g ≠ f → (t.file g).content = (s.file g).content)
    (hsame : ∀ g, g ≠ f → (c.Reads g ↔ (s.process i).Reads g))
    (hreads : c.Reads f → m'.cell f = none)
    (hcontent : ¬ c.Reads f → CellHolds s.published (t.file f).content (m'.cell f))
    (hfpath : NoSeparator c.fpath)
    (hobtained : List.Forall₂ (fun o k => Obtains s.published k o) t.delivered m'.taken) :
    Carries t m' where
  sent := by rw [hsent, ha.published, h.sent]
  fits := by
    rw [ha.published]
    exact h.fits
  clean := by
    rw [ha.published]
    exact h.clean
  taken := by
    intro j g hj
    by_cases hji : j = i
    · subst hji
      rw [ha.process_self] at hj
      by_cases hg : g = f
      · subst hg
        exact hreads hj
      · rw [hcell g hg]
        exact h.taken j g ((hsame g hg).mp hj)
    · rw [ha.process_of_ne hji] at hj
      have hg : g ≠ f := by
        rintro rfl
        have hown := ha.owner_before hl (hl.owner (o := .client j) hj.holds)
        exact hji (Owner.client.inj hown)
      rw [hcell g hg]
      exact h.taken j g hj
  content := by
    intro g hnone
    rw [ha.published]
    have hi := hnone i
    rw [ha.process_self] at hi
    by_cases hg : g = f
    · subst hg
      exact hcontent hi
    · rw [hother g hg, hcell g hg]
      refine h.content g fun j => ?_
      by_cases hji : j = i
      · subst hji
        exact fun hj => hi ((hsame g hg).mpr hj)
      · rw [← ha.process_of_ne hji]
        exact hnone j
  fpath := by
    intro j
    by_cases hji : j = i
    · subst hji
      rw [ha.process_self]
      exact hfpath
    · rw [ha.process_of_ne hji]
      exact h.fpath j
  obtained := by
    rw [ha.published]
    exact hobtained

theorem not_reads_call (hl : Locked s) (hheld : (s.process i).pc.holds = some f)
    (hlck : c.lckfds = (s.process i).lckfds) (hgot : c.pc ≠ .got f) : ¬ c.Reads f := by
  rintro (hpc | ⟨fd, hfd⟩)
  · exact hgot hpc
  · rw [hlck] at hfd
    exact hl.call fd hheld hfd

/-- The message is in its place until the call has read it. -/
theorem content_of_call (h : Carries s m) (hl : Locked s) (hheld : (s.process i).pc.holds = some f)
    (hgot : (s.process i).pc ≠ .got f) : CellHolds s.published (s.file f).content (m.cell f) := by
  refine h.content f fun j => ?_
  by_cases hj : j = i
  · subst hj
    exact not_reads_call hl hheld rfl hgot
  · exact not_reads_of_owner hl (hl.owner_of_pc hheld) fun heq => hj (Owner.client.inj heq).symm

theorem reads_congr {c' : Process} (hlck : c.lckfds = c'.lckfds) {g : Bool} (hc : c.pc ≠ .got g)
    (hc' : c'.pc ≠ .got g) : c.Reads g ↔ c'.Reads g := by
  unfold Process.Reads
  rw [hlck]
  simp [hc, hc']

theorem delivered_append {r : List Obtained} (hdel : t.obtained = s.obtained ++ r) :
    t.delivered = s.delivered ++ r.filter (· ≠ .files []) := by
  unfold State.delivered
  rw [hdel, List.filter_append]

/-- The names that `_jitget` reads are those of the message. -/
theorem readNames_message (h : Carries s m) (hl : Locked s)
    (hpc : (s.process i).pc = .locked .jitget f) {ok : Bool} {n : List UInt8}
    {names : List (List UInt8)}
    (hread : (readNames (s.file f).content ok (s.process i).fpath).2 = some (n :: names)) :
    ∃ k, m.cell f = some k ∧ Obtains s.published k (.files (n :: names)) := by
  have hblank : ¬ (ok = true → Blank (s.file f).content) := by
    intro hb
    rcases readNames_blank (h.fpath i) hb with hnone | hnil
    · rw [hnone] at hread
      cases hread
    · rw [hnil] at hread
      cases hread
  obtain ⟨hok, hnb⟩ := Classical.not_imp.mp hblank
  subst hok
  obtain ⟨k, ns, hk, hns, hholds⟩ :=
    exists_message (h.content_of_call hl (by rw [hpc]; rfl) (by simp [hpc])) hnb
  have hmem := List.mem_of_getElem? hns
  rw [readNames_holds (h.fits ns hmem) hholds] at hread
  split at hread
  · cases hread
  · refine ⟨k, hk, ns, hns, ?_⟩
    rw [← Option.some.inj hread, readBack_clean (h.fits ns hmem) (h.clean ns hmem)]

theorem readList (h : Carries s m) (hl : Locked s) (hpc : (s.process i).pc = .locked .jitget f)
    (ok : Bool) : ∃ m', Carries (s.readList i f ok) m' := by
  have hheld : (s.process i).pc.holds = some f := by rw [hpc]; rfl
  have hold : ∀ g, (s.process i).pc ≠ .got g := by simp [hpc]
  have hbuf := readNames_buffer (s.file f).content ok (s.process i).fpath
  have hmessage := @h.readNames_message _ _ _ _ hl hpc ok
  unfold State.readList
  rcases hread : readNames (s.file f).content ok (s.process i).fpath with ⟨b, _ | _ | ⟨n, names⟩⟩
  · rw [hread] at hbuf
    refine ⟨m, h.acts hl (hl.acts_call rfl hheld rfl rfl (.inl ⟨rfl, rfl⟩) (.inl rfl)
      (hl.owner_same hheld) rfl rfl rfl) rfl (fun _ _ => rfl) (fun _ _ => rfl) ?_ ?_ ?_ hbuf
      h.obtained⟩
    · exact fun g _ => reads_congr (by rfl) (by simp) (hold g)
    · exact fun hreads => absurd hreads (not_reads_call hl hheld rfl (by simp))
    · exact fun _ => h.content_of_call hl hheld (hold f)
  · rw [hread] at hbuf
    refine ⟨m.discard f, h.acts hl (hl.acts_call rfl hheld rfl rfl (.inl ⟨rfl, rfl⟩) (.inl rfl)
      (hl.owner_same hheld) rfl rfl rfl) rfl (fun g hg => Mailboxes.discard_cell_other m hg)
      (fun _ _ => rfl) ?_ ?_ ?_ hbuf ?_⟩
    · exact fun g hg => reads_congr (by rfl) (by simpa using Ne.symm hg) (hold g)
    · exact fun _ => Mailboxes.discard_cell_self m f
    · exact fun hnot => absurd (.inl rfl) hnot
    · rw [delivered_append rfl]
      simpa using h.obtained
  · rw [hread] at hbuf
    obtain ⟨k, hk, hobt⟩ := hmessage (by rw [hread])
    refine ⟨m.take f k hk, h.acts hl (hl.acts_call rfl hheld rfl rfl (.inl ⟨rfl, rfl⟩) (.inl rfl)
      (hl.owner_same hheld) rfl rfl rfl) rfl (fun g hg => Mailboxes.take_cell_other m hk hg)
      (fun _ _ => rfl) ?_ ?_ ?_ hbuf ?_⟩
    · exact fun g hg => reads_congr (by rfl) (by simpa using Ne.symm hg) (hold g)
    · exact fun _ => Mailboxes.take_cell_self m f k hk
    · exact fun hnot => absurd (.inl rfl) hnot
    · rw [delivered_append rfl]
      exact List.rel_append h.obtained (by simpa using hobt)

/-- The name that `_jitopen` gives to `open` is that of the message. -/
theorem entry_message (h : Carries s m) (hl : Locked s) {type : Nat} {ok : Bool}
    (hpc : (s.process i).pc = .locked (.jitopen type) f)
    (hread : ¬ NothingRead (s.file f).content ok) :
    ∃ k, m.cell f = some k ∧ ∀ n, (namesRead (s.file f).content)[type]? = some n →
      Obtains s.published k (.file type n) := by
  obtain ⟨k, ns, hk, hns, hholds⟩ :=
    exists_message (h.content_of_call hl (by rw [hpc]; rfl) (by simp [hpc])) (not_blank_of_read hread)
  refine ⟨k, hk, fun n hn => ⟨ns, hns, ?_⟩⟩
  have hmem := List.mem_of_getElem? hns
  rw [← publishedName_holds (h.fits ns hmem) (h.clean ns hmem) hholds]
  exact publishedName_of_read hn

/-- `open` has succeeded: the message is gone, with its file if there was a name. -/
theorem opened (h : Carries s m) {k : Nat} (hk : m.cell f = some k) {type : Nat} {e : Entry}
    (hname : ∀ n, e = .name n → Obtains s.published k (.file type n)) :
    ∃ m' : Mailboxes Bool, m'.sent = m.sent ∧ (∀ g, g ≠ f → m'.cell g = m.cell g) ∧
      m'.cell f = none ∧ List.Forall₂ (fun o k => Obtains s.published k o)
        (s.delivered ++ (fileOf type (some e)).filter (· ≠ .files [])) m'.taken := by
  cases e with
  | name n =>
    refine ⟨m.take f k hk, rfl, fun g hg => Mailboxes.take_cell_other m hk hg,
      Mailboxes.take_cell_self m f k hk, List.rel_append h.obtained ?_⟩
    simpa [fileOf] using hname n rfl
  | null | unset =>
    refine ⟨m.discard f, rfl, fun g hg => Mailboxes.discard_cell_other m hg,
      Mailboxes.discard_cell_self m f, ?_⟩
    simpa [fileOf] using h.obtained

theorem openFile (h : Carries s m) (hl : Locked s) {type : Nat} {ok : Bool} {disk : Disk}
    (hpc : (s.process i).pc = .locked (.jitopen type) f)
    (hopen : s.openFile i f type ok disk = some t) : ∃ m', Carries t m' := by
  have hheld : (s.process i).pc.holds = some f := by rw [hpc]; rfl
  have hold : ∀ g, (s.process i).pc ≠ .got g := by simp [hpc]
  have hcontent := h.content_of_call hl hheld (hold f)
  have hbuf := @jitopen_buffer (s.file f).content _ (h.fpath i) ok type disk
  unfold State.openFile at hopen
  by_cases hread : NothingRead (s.file f).content ok
  · obtain ⟨b, hr⟩ := @jitopen_refused _ (s.process i).fpath _ type disk hread
    rw [hr] at hbuf
    simp only [hr, reduceIte] at hopen
    rw [← Option.some.inj hopen]
    refine ⟨m, h.acts hl (hl.acts_call rfl hheld rfl rfl (.inl ⟨rfl, rfl⟩) (.inl rfl)
      (hl.owner_same hheld) rfl rfl rfl) rfl (fun _ _ => rfl) (fun _ _ => rfl) ?_ ?_ ?_ hbuf
      h.obtained⟩
    · exact fun g _ => reads_congr (by rfl) (by simp) (hold g)
    · exact fun hreads => absurd hreads (not_reads_call hl hheld rfl (by simp))
    · exact fun _ => hcontent
  · obtain ⟨e, x, b, hr, hentry⟩ := @jitopen_called _ (s.process i).fpath _ type disk hread
    obtain ⟨k, hk, hmessage⟩ := h.entry_message hl hpc hread
    have hname : ∀ n, e = .name n → Obtains s.published k (.file type n) :=
      fun n hn => hmessage n ((hentry n).mp hn)
    rw [hr] at hbuf
    simp only [hr, Bool.true_eq_false, if_false] at hopen
    split at hopen
    · -- the file cannot be opened, and the message stays behind the lock
      rw [← Option.some.inj hopen]
      refine ⟨m, h.acts hl (hl.acts_call rfl hheld rfl rfl (.inr rfl) (.inl rfl)
        (hl.owner_same hheld) rfl rfl rfl) rfl (fun _ _ => rfl) (fun _ _ => rfl) ?_ ?_ ?_ hbuf
        h.obtained⟩
      · exact fun g _ => reads_congr (by rfl) (by simp) (hold g)
      · exact fun hreads => absurd hreads (not_reads_call hl hheld rfl (by simp))
      · exact fun _ => hcontent
    · split at hopen
      · cases hopen
      · rename_i hfresh
        rw [not_or, not_not] at hfresh
        obtain ⟨m', hsent, hcell, hnone, hobt⟩ := h.opened hk hname
        rw [← Option.some.inj hopen]
        refine ⟨m', h.acts hl (hl.acts_session rfl hheld rfl hfresh.2 rfl rfl rfl rfl rfl) hsent hcell
          (fun _ _ => rfl) ?_ (fun _ => hnone) ?_ hbuf ?_⟩
        · intro g hg
          unfold Process.Reads
          rw [exists_update_iff hfresh.2 (Ne.symm hg)]
          simp [hold g]
        · exact fun hnot => absurd (.inr ⟨_, Function.update_self ..⟩) hnot
        · rw [delivered_append rfl]
          exact hobt

/-- Nothing has happened to the messages. -/
theorem congr (h : Carries s m) (hcontent : ∀ g, (t.file g).content = (s.file g).content)
    (hreads : ∀ j g, (t.process j).Reads g ↔ (s.process j).Reads g)
    (hfpath : ∀ j, (t.process j).fpath = (s.process j).fpath) (hpub : t.published = s.published)
    (hobtained : t.obtained = s.obtained) : Carries t m where
  sent := by rw [hpub, h.sent]
  fits := by
    rw [hpub]
    exact h.fits
  clean := by
    rw [hpub]
    exact h.clean
  taken := fun j g hj => h.taken j g ((hreads j g).mp hj)
  content := by
    intro g hnone
    rw [hcontent, hpub]
    exact h.content g fun j hj => hnone j ((hreads j g).mpr hj)
  fpath := by
    intro j
    rw [hfpath]
    exact h.fpath j
  obtained := by
    unfold State.delivered
    rw [hpub, hobtained]
    exact h.obtained

theorem setOwner_content (s : State) (f g : Bool) (o : Option Owner) :
    ((s.setOwner f o).file g).content = (s.file g).content := by
  by_cases h : g = f
  · subst h
    simp [State.setOwner, State.setFile]
  · simp [State.setOwner, State.setFile, h]

theorem setContent_content (s : State) (f g : Bool) (x : List UInt8) :
    ((s.setContent f x).file g).content = if g = f then x else (s.file g).content := by
  by_cases h : g = f
  · subst h
    simp [State.setContent, State.setFile]
  · simp [State.setContent, State.setFile, h]

/-- A process that becomes `c` without reading a message. -/
theorem moves (h : Carries s m) (hcontent : ∀ g, (t.file g).content = (s.file g).content)
    (hproc : t.process = Function.update s.process i c) (hfpath : c.fpath = (s.process i).fpath)
    (hlck : c.lckfds = (s.process i).lckfds) (hc : ∀ g, c.pc ≠ .got g)
    (hold : ∀ g, (s.process i).pc ≠ .got g) (hpub : t.published = s.published)
    (hobtained : t.obtained = s.obtained) : Carries t m := by
  refine h.congr hcontent ?_ ?_ hpub hobtained
  · intro j g
    by_cases hj : j = i
    · subst hj
      rw [hproc, Function.update_self]
      exact reads_congr hlck (hc g) (hold g)
    · rw [hproc, Function.update_of_ne hj]
  · intro j
    by_cases hj : j = i
    · subst hj
      rw [hproc, Function.update_self, hfpath]
    · rw [hproc, Function.update_of_ne hj]

theorem write (h : Carries s m) (hl : Locked s) {names : List CStr} (hk : s.kpc = .held f)
    (hfit : FitsTables names) (hclean : ∀ n ∈ names, Lockfile.Clean n) :
    Carries { s.setContent f (locked_write (s.file f).content (lockedf names)) with
      kpc := .written f
      published := s.published ++ [names] } (m.send f) where
  sent := by simp [h.sent]
  fits := by
    intro ns hns
    rcases List.mem_append.mp hns with hold | hnew
    · exact h.fits ns hold
    · rwa [List.mem_singleton.mp hnew]
  clean := by
    intro ns hns
    rcases List.mem_append.mp hns with hold | hnew
    · exact h.clean ns hold
    · rwa [List.mem_singleton.mp hnew]
  taken := by
    intro j g hj
    have hg : g ≠ f := by
      rintro rfl
      have hown := hl.owner (o := .kwatcher) (f := g) (by rw [State.holds, hk]; rfl)
      exact not_reads_of_owner hl hown (by simp) hj
    rw [Mailboxes.send_cell_other m hg]
    exact h.taken j g hj
  content := by
    intro g hnone
    have hcontent := setContent_content s f g (locked_write (s.file f).content (lockedf names))
    by_cases hg : g = f
    · subst hg
      rw [if_pos rfl] at hcontent
      rw [Mailboxes.send_cell_self, h.sent]
      refine ⟨names, by simp, ?_⟩
      rw [hcontent]
      exact holds_locked_write names (s.file g).content
    · rw [if_neg hg] at hcontent
      rw [Mailboxes.send_cell_other m hg, hcontent]
      exact (h.content g hnone).append names
  fpath := h.fpath
  obtained := by
    rw [Mailboxes.send_taken]
    exact h.obtained.imp fun _ _ hobt => hobt.append names

/-- Four zero bytes take the place of a message that has been read. -/
theorem nullify (h : Carries s m) (hl : Locked s)
    (ha : Acts s t i f (some (.client i)) c) (hreads : (s.process i).Reads f)
    (hcontent : ∀ g, (t.file g).content =
      if g = f then Lockfile.nullify (s.file f).content else (s.file g).content)
    (hsame : ∀ g, g ≠ f → (c.Reads g ↔ (s.process i).Reads g)) (hnot : ¬ c.Reads f)
    (hfpath : c.fpath = (s.process i).fpath) (hobtained : t.obtained = s.obtained) :
    Carries t m := by
  refine h.acts hl ha rfl (fun _ _ => rfl) ?_ hsame (fun hc => absurd hc hnot) ?_ ?_ ?_
  · intro g hg
    rw [hcontent, if_neg hg]
  · intro _
    rw [h.taken i f hreads, hcontent, if_pos rfl]
    exact rfl
  · rw [hfpath]
    exact h.fpath i
  · unfold State.delivered
    rw [hobtained]
    exact h.obtained

theorem step (h : Carries s m) (hl : Locked s) {l : Label} (hclean : l.Clean)
    (hstep : Sessions.step s l = some t) : ∃ m', Carries t m' := by
  cases step_cases hstep with
  | lock hpc hfree =>
    exact ⟨m, h.congr (fun g => setOwner_content s _ g _) (fun _ _ => Iff.rfl) (fun _ => rfl) rfl rfl⟩
  | write names f hk hfit => exact ⟨m.send f, h.write hl hk hfit hclean⟩
  | unlock f hk =>
    exact ⟨m, h.congr (fun g => setOwner_content s f g _) (fun _ _ => Iff.rfl) (fun _ => rfl) rfl rfl⟩
  | call i c hpc =>
    exact ⟨m, h.moves (fun _ => rfl) rfl rfl rfl (by simp) (by simp [hpc]) rfl rfl⟩
  | clientLock i c f hpc hf hfree =>
    exact ⟨m, h.moves (fun g => setOwner_content s f g _) rfl rfl rfl (by simp) (by simp [hpc]) rfl rfl⟩
  | readList i ok f disk hpc => exact h.readList hl hpc ok
  | openFile i type ok f disk t hpc hopen => exact h.openFile hl hpc hopen
  | clientClose i f hpc | clientUnlock i f hpc =>
    exact ⟨m, h.moves (fun g => setOwner_content s f g _) rfl rfl rfl (by simp) (by simp [hpc]) rfl rfl⟩
  | clientNullify i f hpc =>
    have ha := hl.acts_nullify hpc
    refine ⟨m, h.nullify hl ha (.inl hpc) (fun g => setContent_content s f g _) ?_ ?_ rfl rfl⟩
    · exact fun g hg => reads_congr (by rfl) (by simp) (by simpa [hpc] using Ne.symm hg)
    · exact not_reads_call hl (by rw [hpc]; rfl) rfl (by simp)
  | jitclose i fd f hpc hfd =>
    have ha := hl.acts_jitclose hpc hfd
    refine ⟨m, h.nullify hl ha (.inr ⟨fd, hfd⟩) (fun g => setContent_content s f g _) ?_ ?_ rfl rfl⟩
    · intro g hg
      have hsame := ha.same g hg
      unfold Process.holds at hsame
      simpa [Process.Reads, Pc.holds, hpc, Ne.symm hg] using hsame
    · rintro (hgot | ⟨fd', hfd'⟩)
      · cases hgot
      · exact ha.call fd' rfl hfd'

end Carries

theorem exec_carries {content : Bool → List UInt8} (hblank : ∀ f, Blank (content f))
    {ls : List Label} (hclean : ∀ l ∈ ls, l.Clean) {s : State}
    (hrun : exec step (init content) ls = some s) : ∃ m, Carries s m := by
  refine (exec_invariant_along (I := fun s => Locked s ∧ ∃ m, Carries s m)
    (C := fun _ l => l.Clean) ?_ ⟨locked_init content, .empty, carries_init hblank⟩
    (along_of_forall hclean) hrun).2
  rintro s l t ⟨hl, m, h⟩ hc hstep
  exact ⟨(hl.step hstep).1, h.step hl hc hstep⟩

/-- Whatever the processes call, and whoever waits or loses a lock file: every result that is not
an empty list is that of one publication, and no publication gives two. The result of `_jitopen` is
the file it opens under a name of the list. -/
theorem results_once {content : Bool → List UInt8} (hblank : ∀ f, Blank (content f))
    {ls : List Label} (hclean : ∀ l ∈ ls, l.Clean) {s : State}
    (hrun : exec step (init content) ls = some s) :
    ∃ idx : List Nat, idx.Nodup ∧
      List.Forall₂ (fun o k => Obtains s.published k o) s.delivered idx := by
  obtain ⟨m, h⟩ := exec_carries hblank hclean hrun
  exact ⟨m.taken, m.nodup, h.obtained⟩

/-- One set goes to `_jitopen`, the next one to `_jitget`. -/
def openThenGet : List Label :=
  [.lock, .write [oneName], .unlock, .call 0 (.jitopen 0), .clientLock 0,
    .clientRead 0 true ⟨fun _ => 4, -1⟩, .lock, .write [oneName, oneName], .unlock, .call 1 .jitget,
    .jitclose 0 4, .clientUnlock 0, .clientLock 1, .clientRead 1 true ⟨fun _ => -1, -1⟩,
    .clientClose 1, .call 1 .jitget, .clientLock 1, .clientRead 1 true ⟨fun _ => -1, -1⟩]

theorem results_once_both : ∃ s, exec step (init fun _ => []) openThenGet = some s ∧
    s.delivered = [.file 0 [97], .files [[97], [97]]] ∧ ∃ idx : List Nat, idx.Nodup ∧
      List.Forall₂ (fun o k => Obtains s.published k o) s.delivered idx :=
  ⟨_, rfl, by decide,
    @results_once (fun _ => []) (fun _ => rfl) openThenGet (by decide) _ rfl⟩

end JitDt.Lockfile.Sessions
