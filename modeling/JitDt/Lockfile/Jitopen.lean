import JitDt.Lockfile.Names

/-!
# What `_jitopen` of jitkclient.c leaves behind

`_jitopen` takes one of the names of the lock file and keeps the lock until `_jitclose`.
It closes the lock file when it found nothing to read, but not when the name is missing
or cannot be opened: the caller gets a negative descriptor and has nothing to close.
-/

namespace JitDt.Lockfile

set_option autoImplicit false

/-- What `open` returns for a name, and for the pointer in a place that was not set. -/
structure Disk where
  named : List UInt8 → Int
  stray : Int

def Disk.open (disk : Disk) : Entry → Int
  | .name n => disk.named n
  | .null => -1
  | .unset => disk.stray

/-- `arg` is the entry handed to `open`, if it was called, `fname` the text copied to the
caller, and `locked` says whether the descriptor of the lock file is still open. -/
structure Opened where
  fd : Int
  arg : Option Entry
  fname : Option Entry
  locked : Bool
  fpath : List UInt8

def _jitopen (content : List UInt8) (ok : Bool) (fpath : List UInt8) (type : Nat) (disk : Disk) :
    Opened :=
  let (sz, b) := locked_read content ok fpath
  if sz ≤ 0 then ⟨-1, none, none, false, b⟩
  else if b.headD 0 = 0 then ⟨-1, none, none, false, b⟩
  else
    let (b', files) := septype (terminate sz b)
    let e := fileEntry b' files type
    let fd := disk.open e
    ⟨fd, some e, some (if fd > 0 then e else .name []), true, b'⟩

/-- The name a lock file holds for a type. -/
def publishedName (content : List UInt8) (type : Nat) : Option (List UInt8) :=
  (splitNames ftypeNum (firstLine (cstrOf content)))[type]?

/-- The names that lie within the `PATH_MAX` bytes read. -/
def namesRead (content : List UInt8) : List (List UInt8) :=
  splitNames ftypeNum (firstLine (cstrOf (content.take pathMax)))

/-- A failed call holds no lock, and `open` gets the published name or fails on a place of
`files` that was set. -/
structure OpenSound (content : List UInt8) (type : Nat) (r : Opened) : Prop where
  unlocked : r.fd < 0 → r.locked = false
  named : ∀ e, r.arg = some e →
    (∃ n, e = .name n ∧ publishedName content type = some n) ∨ (r.fd < 0 ∧ e ≠ .unset)

/-! ## A part of the file -/

theorem firstLine_take (s : List UInt8) (n : Nat) :
    firstLine (s.take n) = (firstLine s).take n := by
  induction s generalizing n with
  | nil => simp [firstLine]
  | cons c s ih =>
    cases n with
    | zero => simp [firstLine]
    | succ n =>
      by_cases hc : c = newline
      · simp [firstLine, hc]
      · have hrest := ih n
        unfold firstLine at hrest ⊢
        rw [List.take_succ_cons, List.idxOf_cons_ne _ hc, List.idxOf_cons_ne _ hc,
          List.take_succ_cons, List.take_succ_cons, List.take_succ_cons, hrest]

/-- A shorter text has the same names as far as it reaches. -/
theorem splitNames_take (k : Nat) (s : List UInt8) (n : Nat) :
    splitNames k (s.take n) <+: splitNames k s := by
  induction k generalizing s n with
  | zero => exact List.prefix_refl _
  | succ k ih =>
    by_cases hmem : ftchrSeparator ∈ s.take n
    · have hlt := List.idxOf_lt_length_of_mem hmem
      have hidx : (s.take n).idxOf ftchrSeparator = s.idxOf ftchrSeparator := by
        conv_rhs => rw [← List.take_append_drop n s]
        exact (List.idxOf_append_of_mem hmem).symm
      rw [List.length_take, hidx] at hlt
      have hname : (s.take n).take (s.idxOf ftchrSeparator) = s.take (s.idxOf ftchrSeparator) := by
        rw [List.take_take, Nat.min_eq_left (by omega)]
      have hdrop : (s.take n).drop (s.idxOf ftchrSeparator + 1) =
          (s.drop (s.idxOf ftchrSeparator + 1)).take (n - (s.idxOf ftchrSeparator + 1)) :=
        List.drop_take
      rw [splitNames, splitNames, if_pos hmem, if_pos (List.mem_of_mem_take hmem), hidx, hname,
        hdrop, List.prefix_cons_inj]
      exact ih _ _
    · rw [splitNames, if_neg hmem]
      exact List.nil_prefix

/-- What kwatcher publishes under a type is what the lock file then holds for it. -/
theorem publishedName_holds {names : List CStr} {content : List UInt8} (hfit : FitsTables names)
    (hclean : ∀ n ∈ names, Clean n) (h : Holds names content) (type : Nat) :
    publishedName content type = (names[type]?).map CStr.bytes := by
  obtain ⟨tail, rfl⟩ := h
  have hstr : cstrOf (lockedf names ++ 0 :: tail) = lockedf names := by
    rw [cstrOf_append (lockedf_nul_free names)]
    simp [cstrOf]
  unfold publishedName
  rw [hstr]
  change (readBack names)[type]? = _
  rw [readBack_clean hfit hclean, List.getElem?_map]

theorem publishedName_of_read {content n : List UInt8} {type : Nat}
    (h : (namesRead content)[type]? = some n) : publishedName content type = some n := by
  unfold namesRead at h
  rw [cstrOf_take, firstLine_take] at h
  obtain ⟨rest, hrest⟩ := splitNames_take ftypeNum (firstLine (cstrOf content)) pathMax
  unfold publishedName
  rw [← hrest, List.getElem?_append_left (List.getElem?_eq_some_iff.mp h).1, h]

/-! ## The outcomes of a call -/

/-- Nothing was read, or the text starts with a NUL or a line end. -/
def NothingRead (content : List UInt8) (ok : Bool) : Prop :=
  ok = false ∨ firstLine (cstrOf content) = []

instance (content : List UInt8) (ok : Bool) : Decidable (NothingRead content ok) :=
  inferInstanceAs (Decidable (_ ∨ _))

section Outcome
variable {content fpath : List UInt8} {ok : Bool} {type : Nat} {disk : Disk}

theorem received_line (content fpath : List UInt8) :
    (firstLine (cstrOf (received content true fpath))).take (content.take pathMax).length =
      firstLine (cstrOf (content.take pathMax)) := by
  unfold received
  rw [if_pos rfl, ← firstLine_take, ← cstrOf_take, List.take_left]

theorem head_eq_zero_iff (hne : content ≠ []) :
    (locked_read content true fpath).2.headD 0 = 0 ↔ firstLine (cstrOf content) = [] := by
  obtain ⟨c, s, rfl⟩ := List.exists_cons_of_ne_nil hne
  have hhead : received (c :: s) true fpath =
      c :: (s.take 4095 ++ fpath.drop ((c :: s).take pathMax).length) := rfl
  rw [← cstrOf_eq_nil_iff, locked_read_string, hhead]
  by_cases h0 : c = 0
  · simp [cstrOf, firstLine, h0]
  · by_cases hnl : c = newline
    · simp [cstrOf, firstLine, hnl, newline]
    · simp [cstrOf, firstLine, h0, List.idxOf_cons_ne _ hnl]

theorem jitopen_refused (h : NothingRead content ok) :
    ∃ b, _jitopen content ok fpath type disk = ⟨-1, none, none, false, b⟩ := by
  unfold _jitopen
  simp only
  split
  · exact ⟨_, rfl⟩
  · rename_i hsz
    cases ok with
    | false => exact absurd (by decide : (-1 : Int) ≤ 0) hsz
    | true =>
      have hne : content ≠ [] := by
        rintro rfl
        exact hsz (by simp [locked_read])
      rw [if_pos ((head_eq_zero_iff hne).mpr (h.resolve_left (by decide)))]
      exact ⟨_, rfl⟩

/-- Otherwise `open` is called and the lock file stays open, whatever `open` says. -/
theorem jitopen_called (h : ¬ NothingRead content ok) :
    ∃ e f b, _jitopen content ok fpath type disk = ⟨disk.open e, some e, f, true, b⟩ ∧
      ∀ n, e = .name n ↔ (namesRead content)[type]? = some n := by
  unfold NothingRead at h
  rw [not_or, Bool.not_eq_false] at h
  obtain ⟨rfl, hline⟩ := h
  have hne : content ≠ [] := by
    rintro rfl
    exact hline rfl
  have hsz : ¬ (locked_read content true fpath).1 ≤ 0 := by
    have hpos := List.length_pos_iff.mpr hne
    have hlen : (locked_read content true fpath).1 = ((content.take pathMax).length : Int) := rfl
    rw [hlen, List.length_take]
    unfold pathMax
    omega
  have hhead := mt (@head_eq_zero_iff content fpath hne).mp hline
  have hnames : splitNames ftypeNum (cstrOf (terminate (locked_read content true fpath).1
      (locked_read content true fpath).2)) = namesRead content := by
    rw [terminate_string, if_pos rfl, received_line]
    rfl
  unfold _jitopen
  simp only [if_neg hsz, if_neg hhead]
  refine ⟨_, _, _, rfl, fun n => ?_⟩
  rw [septype_entry_name, hnames]

end Outcome

/-- A call is sound exactly when it has nothing to read, or finds the name of its type and
can open it. -/
theorem jitopen_sound_iff (content : List UInt8) (ok : Bool) (fpath : List UInt8) (type : Nat)
    (disk : Disk) :
    OpenSound content type (_jitopen content ok fpath type disk) ↔
      NothingRead content ok ∨ ∃ n, (namesRead content)[type]? = some n ∧ 0 ≤ disk.named n := by
  by_cases h : NothingRead content ok
  · obtain ⟨b, hr⟩ := @jitopen_refused content fpath ok type disk h
    rw [hr]
    exact iff_of_true ⟨fun _ => rfl, fun e he => by cases he⟩ (Or.inl h)
  · obtain ⟨e, f, b, hr, hname⟩ := @jitopen_called content fpath ok type disk h
    rw [hr]
    constructor
    · intro hsound
      have hfd : 0 ≤ disk.open e := by
        by_contra hneg
        have hunlocked := hsound.unlocked (Int.not_le.mp hneg)
        cases hunlocked
      rcases hsound.named _ rfl with ⟨n, hn, _⟩ | ⟨hneg, _⟩
      · refine Or.inr ⟨n, (hname n).mp hn, ?_⟩
        rw [hn] at hfd
        exact hfd
      · exact absurd hfd (Int.not_le.mpr hneg)
    · rintro (hnothing | ⟨n, hn, hfd⟩)
      · exact absurd hnothing h
      · obtain rfl : e = .name n := (hname n).mpr hn
        refine ⟨fun hneg => absurd hfd (Int.not_le.mpr hneg), ?_⟩
        intro e he
        obtain rfl : Entry.name n = e := Option.some.inj he
        exact Or.inl ⟨n, rfl, publishedName_of_read hn⟩

/-- The only published file has been removed: `open` fails and the lock is kept. -/
theorem jitopen_keeps_lock :
    ¬ OpenSound [97, 59, 0] 0 (_jitopen [97, 59, 0] true [] 0 ⟨fun _ => -1, -1⟩) := by
  intro hsound
  have hunlocked := hsound.unlocked (by decide)
  exact absurd hunlocked (by decide)

end JitDt.Lockfile
