import JitDt.Lwatcher.BufferSize

/-!
# The name list in a GET reply

`tmpstr` collects the paths of the files that were opened, each followed by a separator,
and its last byte is then cut off. It is as large as the string field of the header, so
the client gets what the server built; but it has no room for long paths, no last byte
when no file was opened, and it names a file before the file is read.
-/

namespace JitDt.Lwatcher

set_option autoImplicit false

open Misclib Jitcclient

/-- The files whose data goes into the reply. -/
def sent (h : HistData) (opt : Opt) (files : Fin transoptSize → FileRead) (n : Nat) : List Path :=
  pick h (fun i => ((files i).read (opt i)).isSome) n

/-- A buffer for the contents that no request can overrun. -/
def roomy : Nat := transoptSize * 2 ^ 31

/-- What `_jitget` stores in `fname` when the reply was built from `tmpstr`. -/
def storedName (date : Nat) (tmpstr : List UInt8) (totsz : Int)
    (retval : Fin transoptSize → Option Int32) (junk : Opt) : List UInt8 :=
  strncpy (replyHeader date tmpstr.dropLast (Int32.ofInt totsz) retval junk).str (scmdStrsiz - 1)

/-- `tmpstr` is built without leaving its bytes, and what the client stores is terminated
and lists exactly the files whose data was sent. -/
def NamesExact (n : Nat) (h : HistData) (opt : Opt) (files : Fin transoptSize → FileRead)
    (heap : Memory) (junk : Opt) : Prop :=
  ∃ p, packFrom roomy h opt files n 0 (.start heap) = some p ∧ p.tmpstr ≠ [] ∧
    0 ∈ storedName h.date p.tmpstr p.totsz p.retval junk ∧
    (cstrOf (storedName h.date p.tmpstr p.totsz p.retval junk)).splitOn 59 =
      (sent h opt files n).map CStr.bytes

/-! ## Lists of paths -/

section Paths
variable {h : HistData} {c d : Fin transoptSize → Bool} {n : Nat}

theorem pick_congr (hn : n ≤ transoptSize) (hcd : ∀ i : Fin transoptSize, i.val < n → c i = d i) :
    pick h c n = pick h d n := by
  induction n with
  | zero => rfl
  | succ n ih =>
    rw [pick_succ (by omega), pick_succ (by omega), ih (by omega) fun i hi => hcd i (by omega),
      hcd ⟨n, by omega⟩ (Nat.lt_succ_self n)]

/-- Of two conditions the stronger one picks fewer, unless they agree. -/
theorem pick_length (hn : n ≤ transoptSize) (hcd : ∀ i, c i → d i)
    (hname : ∀ j : Fin fnameMax, j.val < n → h.fname j ≠ none) :
    (pick h c n).length ≤ (pick h d n).length ∧
      ((pick h c n).length = (pick h d n).length →
        ∀ i : Fin transoptSize, i.val < n → d i → c i) := by
  induction n with
  | zero =>
    refine ⟨le_refl _, ?_⟩
    intro _ i hi
    omega
  | succ n ih =>
    obtain ⟨hle, heq⟩ := ih (by omega) fun j hj => hname j (by omega)
    obtain ⟨path, hpath⟩ := Option.ne_none_iff_exists'.mp (hname ⟨n, hn⟩ (Nat.lt_succ_self n))
    have hlast := hcd ⟨n, by omega⟩
    rw [pick_succ (by omega), pick_succ (by omega), List.length_append, List.length_append, hpath]
    have hsame : ∀ i : Fin transoptSize, i.val < n + 1 → i.val < n ∨ i = ⟨n, by omega⟩ := by
      intro i hi
      rcases Nat.lt_succ_iff_lt_or_eq.mp hi with hlt | hi
      · exact Or.inl hlt
      · exact Or.inr (Fin.ext hi)
    cases hc : c ⟨n, by omega⟩ with
    | true =>
      rw [hlast hc]
      refine ⟨Nat.add_le_add_right hle _, ?_⟩
      intro hlen i hi hdi
      rcases hsame i hi with hlt | rfl
      · exact heq (Nat.add_right_cancel hlen) i hlt hdi
      · exact hc
    | false =>
      cases hd : d ⟨n, by omega⟩ with
      | true =>
        simp only [Bool.false_eq_true, if_false, if_true, Option.toList_none, Option.toList_some,
          List.length_nil, List.length_singleton]
        exact ⟨by omega, fun hlen => absurd hlen (by omega)⟩
      | false =>
        refine ⟨Nat.add_le_add_right hle _, ?_⟩
        intro hlen i hi hdi
        rcases hsame i hi with hlt | rfl
        · exact heq (Nat.add_right_cancel hlen) i hlt hdi
        · rw [hd] at hdi
          cases hdi

theorem opens_of_read {file : FileRead} {o : Int32} (h : (file.read o).isSome) : file.opens := by
  cases file with
  | noOpen => cases h
  | noRead => rfl
  | content bytes => rfl

/-- The list names what was sent exactly when every file that opens is read. -/
theorem opened_eq_sent_iff {opt : Opt} {files : Fin transoptSize → FileRead} (hn : n ≤ transoptSize)
    (hname : ∀ j : Fin fnameMax, j.val < n → h.fname j ≠ none) :
    opened h files n = sent h opt files n ↔
      ∀ i : Fin transoptSize, i.val < n → (files i).opens → ((files i).read (opt i)).isSome := by
  have hlen := pick_length (h := h) (c := fun i => ((files i).read (opt i)).isSome)
    (d := fun i => (files i).opens) hn (fun i => opens_of_read) hname
  constructor
  · intro heq
    exact hlen.2 (congrArg List.length heq.symm)
  · intro hall
    refine pick_congr hn fun i hi => ?_
    exact Bool.eq_iff_iff.mpr ⟨hall i hi, opens_of_read⟩

theorem listText_dropLast {paths : List Path} (hne : paths ≠ []) :
    (listText paths).dropLast = [(59 : UInt8)].intercalate (paths.map CStr.bytes) := by
  induction paths with
  | nil => exact absurd rfl hne
  | cons p paths ih =>
    cases paths with
    | nil =>
      have htext : listText [p] = p.bytes ++ [59] := List.append_nil _
      rw [htext, List.dropLast_concat]
      simp [List.intercalate]
    | cons p' paths =>
      have hrest := ih (List.cons_ne_nil _ _)
      have htail : listText (p' :: paths) ≠ [] := by simp [listText, ftstrSeparator]
      have htext : listText (p :: p' :: paths) = p.bytes ++ [59] ++ listText (p' :: paths) := rfl
      rw [htext, List.dropLast_append_of_ne_nil htail, hrest, List.map_cons, List.map_cons,
        List.map_cons, List.intercalate_cons_cons]

theorem listText_eq_nil_iff {paths : List Path} : listText paths = [] ↔ paths = [] := by
  cases paths with
  | nil => exact iff_of_true rfl rfl
  | cons p paths => simp [listText, ftstrSeparator]

theorem nul_not_mem_listText (paths : List Path) : (0 : UInt8) ∉ listText paths := by
  intro hmem
  obtain ⟨p, _, hp⟩ := List.mem_flatMap.mp hmem
  rcases List.mem_append.mp hp with hp | hp
  · exact p.nul_free hp
  · exact absurd hp (by decide)

end Paths

/-! ## The loop -/

section Loop
variable {alloc : Nat} {h : HistData} {opt : Opt} {files : Fin transoptSize → FileRead}

theorem listText_length_mono (h : HistData) (files : Fin transoptSize → FileRead) {i j : Nat}
    (hij : i ≤ j) : (listText (opened h files i)).length ≤ (listText (opened h files j)).length := by
  have hprefix : opened h files i <+: opened h files j :=
    (List.take_prefix_take_left hij).filterMap _
  obtain ⟨t, ht⟩ := hprefix
  unfold listText
  rw [← ht, List.flatMap_append, List.length_append]
  omega

theorem packFile_defined {i : Fin transoptSize} {path : Path} {file : FileRead} {p : Pack}
    (hread : file.opens → (file.read (opt i)).isSome)
    (hroom : file.opens → p.tmpstr.length + (path.bytes ++ ftstrSeparator).length < scmdStrsiz)
    (htot : 0 ≤ p.totsz ∧ p.totsz ≤ i.val * 2 ^ 31) :
    ∃ q, packFile roomy opt i path file p = some q ∧ 0 ≤ q.totsz ∧
      q.totsz ≤ (i.val + 1) * 2 ^ 31 := by
  cases hopen : file.opens with
  | false =>
    cases file with
    | noOpen => exact ⟨p, rfl, htot.1, by omega⟩
    | noRead => cases hopen
    | content bytes => cases hopen
  | true =>
    obtain ⟨bytes, hbytes⟩ := Option.isSome_iff_exists.mp (hread hopen)
    have hshort := hroom hopen
    rw [List.length_append] at hshort
    have hpack : packFile roomy opt i path file p = packOpened roomy opt i path file p := by
      cases file with
      | noOpen => cases hopen
      | noRead => rfl
      | content _ => rfl
    have hlen := (read_length_le hbytes).2
    have hmax := (opt i).toInt_lt
    have hi := i.isLt
    have hfill : p.fill roomy bytes = some (p.cp.write p.totsz bytes) := by
      apply if_pos
      unfold roomy transoptSize at *
      push_cast
      exact Or.inr ⟨htot.1, by omega⟩
    have hcat₁ : strcat p.tmpstr path.bytes = some (p.tmpstr ++ path.bytes) := if_pos (by omega)
    have hcat₂ : strcat (p.tmpstr ++ path.bytes) ftstrSeparator =
        some (p.tmpstr ++ path.bytes ++ ftstrSeparator) :=
      if_pos (by rw [List.length_append]; omega)
    rw [hpack]
    unfold packOpened
    simp only [hcat₁, hcat₂, hbytes, hfill, Option.bind_eq_bind, Option.bind_some]
    exact ⟨_, rfl, by simp only; omega, by simp only; omega⟩

/-- The loop runs to its end when the list has room and every file that opens is read. -/
theorem packFrom_defined {k i : Nat} {p : Pack} (hk : i + k ≤ transoptSize)
    (hname : ∀ j : Fin fnameMax, j.val < i + k → h.fname j ≠ none)
    (hread : ∀ j : Fin transoptSize, j.val < i + k → (files j).opens →
      ((files j).read (opt j)).isSome)
    (hroom : (listText (opened h files (i + k))).length < scmdStrsiz)
    (htext : p.tmpstr = listText (opened h files i))
    (htot : 0 ≤ p.totsz ∧ p.totsz ≤ i * 2 ^ 31) :
    ∃ q, packFrom roomy h opt files k i p = some q := by
  induction k generalizing i p with
  | zero => exact ⟨p, rfl⟩
  | succ k ih =>
    have hi : i < transoptSize := by omega
    obtain ⟨path, hpath⟩ := Option.ne_none_iff_exists'.mp (hname ⟨i, hi⟩ (by simp only; omega))
    have hsucc : listText (opened h files (i + 1)) = listText (opened h files i) ++
        if (files ⟨i, hi⟩).opens then path.bytes ++ ftstrSeparator else [] := opened_succ hi hpath
    have hgrow : (listText (opened h files (i + 1))).length < scmdStrsiz :=
      (listText_length_mono h files (by omega)).trans_lt hroom
    have hfits : (files ⟨i, hi⟩).opens →
        p.tmpstr.length + (path.bytes ++ ftstrSeparator).length < scmdStrsiz := by
      intro hopen
      rw [hsucc, if_pos hopen, ← htext, List.length_append] at hgrow
      exact hgrow
    obtain ⟨p', hfile, hlo, hhi⟩ :=
      packFile_defined (hread ⟨i, hi⟩ (by simp only; omega)) hfits htot
    have htext' : p'.tmpstr = listText (opened h files (i + 1)) := by
      have hlen : p.tmpstr.length < scmdStrsiz := by
        rw [htext]
        exact (listText_length_mono h files (by omega)).trans_lt hroom
      rw [(packFile_tmpstr hfile hlen).1, hsucc, htext]
    rw [show i + (k + 1) = i + 1 + k by omega] at hk hname hread hroom
    obtain ⟨q, hq⟩ := ih hk hname hread hroom htext' ⟨hlo, by push_cast; exact hhi⟩
    refine ⟨q, ?_⟩
    unfold packFrom
    rw [dif_pos hi, hpath]
    simp only [hfile, Option.bind_eq_bind, Option.bind_some, hq]

end Loop

/-! ## The string of the client -/

theorem strncpy_of_cstrOf {src s : List UInt8} {n : Nat} (hs : cstrOf src = s) (hn : s.length ≤ n) :
    strncpy src n = s ++ List.replicate (n - s.length) 0 := by
  unfold strncpy
  rw [hs, List.take_of_length_le hn]

theorem cstrOf_append_nul {s : List UInt8} (hs : (0 : UInt8) ∉ s) {t : List UInt8}
    (ht : t = [] ∨ t.head? = some 0) : cstrOf (s ++ t) = s := by
  rw [cstrOf_append hs]
  cases t with
  | nil => exact List.append_nil s
  | cons b t =>
    have hb : b = 0 := by simpa using ht
    rw [hb]
    exact List.append_nil s

/-- What fits the buffer of the server also fits the header and the copy of the client. -/
theorem storedName_eq {tmpstr : List UInt8} (hne : tmpstr ≠ []) (hlen : tmpstr.length < scmdStrsiz)
    (hnul : (0 : UInt8) ∉ tmpstr) (date : Nat) (totsz : Int)
    (retval : Fin transoptSize → Option Int32) (junk : Opt) :
    cstrOf (storedName date tmpstr totsz retval junk) = tmpstr.dropLast ∧
      0 ∈ storedName date tmpstr totsz retval junk := by
  have hdrop : (0 : UInt8) ∉ tmpstr.dropLast := fun hmem => hnul (List.mem_of_mem_dropLast hmem)
  have hpos := List.length_pos_iff.mpr hne
  have hshort : tmpstr.dropLast.length < scmdStrsiz - 1 := by
    rw [List.length_dropLast]
    omega
  obtain ⟨k, hk⟩ : ∃ k, scmdStrsiz - 1 - tmpstr.dropLast.length = k + 1 :=
    ⟨scmdStrsiz - 1 - tmpstr.dropLast.length - 1, by omega⟩
  have hself : cstrOf tmpstr.dropLast = tmpstr.dropLast := by
    have h := cstrOf_append_nul hdrop (Or.inl rfl)
    rwa [List.append_nil] at h
  have hstr : strncpy tmpstr.dropLast (scmdStrsiz - 1) =
      tmpstr.dropLast ++ List.replicate (k + 1) 0 := by
    rw [strncpy_of_cstrOf hself hshort.le, hk]
  have hstored : storedName date tmpstr totsz retval junk =
      tmpstr.dropLast ++ List.replicate (k + 1) 0 := by
    change strncpy (strncpy tmpstr.dropLast (scmdStrsiz - 1) ++ [0]) (scmdStrsiz - 1) = _
    rw [hstr, List.append_assoc, strncpy_of_cstrOf (cstrOf_append_nul hdrop (Or.inr rfl)) hshort.le,
      hk]
  rw [hstored]
  refine ⟨cstrOf_append_nul hdrop (Or.inr rfl), ?_⟩
  simp

theorem split_listText {paths : List Path} (hne : paths ≠ [])
    (hsemi : ∀ p ∈ paths, (59 : UInt8) ∉ p.bytes) :
    (listText paths).dropLast.splitOn 59 = paths.map CStr.bytes := by
  rw [listText_dropLast hne]
  apply List.splitOn_intercalate
  · intro l hl
    obtain ⟨p, hp, rfl⟩ := List.mem_map.mp hl
    exact hsemi p hp
  · rwa [Ne, List.map_eq_nil_iff]

theorem mem_opened {h : HistData} {files : Fin transoptSize → FileRead} {n : Nat} {path : Path}
    (hp : path ∈ opened h files n) : ∃ i, h.fname i = some path := by
  obtain ⟨i, _, hi⟩ := List.mem_filterMap.mp hp
  split at hi
  · exact ⟨i, hi⟩
  · cases hi

theorem map_bytes_injective {ps qs : List Path} (h : ps.map CStr.bytes = qs.map CStr.bytes) :
    ps = qs := List.map_injective_iff.mpr (fun _ _ => CStr.ext) h

theorem listText_length (paths : List Path) :
    (listText paths).length = (paths.map fun p => p.bytes.length + 1).sum := by
  unfold listText
  rw [List.length_flatMap]
  congr 1
  refine List.map_congr_left fun p _ => ?_
  rw [List.length_append]
  rfl

/-- For a complete entry of paths without separators: the list is exact if and only if a file
opens, the paths with their separators take at most 255 bytes, and what opens is read. -/
theorem namesExact_iff {nsize : Nat} {h : HistData} (harr : arrived nsize h = some true)
    (hsemi : ∀ i path, h.fname i = some path → (59 : UInt8) ∉ path.bytes) (opt : Opt)
    (files : Fin transoptSize → FileRead) (heap : Memory) (junk : Opt) :
    NamesExact (packed nsize opt) h opt files heap junk ↔
      opened h files (packed nsize opt) ≠ [] ∧
        ((opened h files (packed nsize opt)).map fun p => p.bytes.length + 1).sum < scmdStrsiz ∧
          ∀ i : Fin transoptSize, i.val < packed nsize opt → (files i).opens →
            ((files i).read (opt i)).isSome := by
  obtain ⟨hns, hpresent⟩ := arrived_true harr
  have hn : packed nsize opt ≤ transoptSize := (Nat.min_le_right _ _).trans (leading_le opt)
  have hname : ∀ j : Fin fnameMax, j.val < packed nsize opt → h.fname j ≠ none :=
    fun j hj => hpresent j (hj.trans_le (Nat.min_le_left _ _))
  have hclean : ∀ p ∈ opened h files (packed nsize opt), (59 : UInt8) ∉ p.bytes := by
    intro p hp
    obtain ⟨i, hi⟩ := mem_opened hp
    exact hsemi i p hi
  have hbuilt : ∀ {p : Pack}, packFrom roomy h opt files (packed nsize opt) 0 (.start heap) = some p →
      p.tmpstr = listText (opened h files (packed nsize opt)) ∧ p.tmpstr.length < scmdStrsiz := by
    intro p hp
    have hrun := packFrom_tmpstr (by rwa [Nat.zero_add]) hp rfl (show 0 < scmdStrsiz by decide)
    rwa [Nat.zero_add] at hrun
  rw [← listText_length, ← opened_eq_sent_iff hn hname]
  constructor
  · rintro ⟨p, hp, hne, _, hsplit⟩
    obtain ⟨htext, hlen⟩ := hbuilt hp
    have hopen : opened h files (packed nsize opt) ≠ [] := by
      intro hnil
      exact hne (htext.trans (listText_eq_nil_iff.mpr hnil))
    have hnul : (0 : UInt8) ∉ p.tmpstr := htext ▸ nul_not_mem_listText _
    rw [(storedName_eq hne hlen hnul _ _ _ _).1, htext, split_listText hopen hclean] at hsplit
    exact ⟨hopen, htext ▸ hlen, map_bytes_injective hsplit⟩
  · rintro ⟨hopen, hlen, hsent⟩
    have hread := (opened_eq_sent_iff hn hname).mp hsent
    obtain ⟨p, hp⟩ := @packFrom_defined h opt files (packed nsize opt) 0 (.start heap)
      (by rwa [Nat.zero_add]) (by rwa [Nat.zero_add]) (by rwa [Nat.zero_add])
      (by rwa [Nat.zero_add]) rfl ⟨le_refl _, le_refl _⟩
    obtain ⟨htext, hlen'⟩ := hbuilt hp
    have hne : p.tmpstr ≠ [] := by
      rw [htext]
      exact fun hnil => hopen (listText_eq_nil_iff.mp hnil)
    have hnul : (0 : UInt8) ∉ p.tmpstr := htext ▸ nul_not_mem_listText _
    obtain ⟨hstr, hterm⟩ := storedName_eq hne hlen' hnul h.date p.totsz p.retval junk
    refine ⟨p, hp, hne, hterm, ?_⟩
    rw [hstr, htext, split_listText hopen hclean, hsent]

/-- Three files, of which the last one is empty. -/
theorem namesExact_iff_three :
    NamesExact 3 ⟨7, ![some ⟨[97, 46], by decide⟩, some ⟨[98], by decide⟩, some ⟨[99], by decide⟩]⟩
      ![5, 2, 8] ![.content [1, 2, 3], .content [4, 5, 6], .content []] (fun _ => 0)
      (fun _ => 0) := by
  refine (@namesExact_iff 3
    ⟨7, ![some ⟨[97, 46], by decide⟩, some ⟨[98], by decide⟩, some ⟨[99], by decide⟩]⟩ rfl ?_
    ![5, 2, 8] ![.content [1, 2, 3], .content [4, 5, 6], .content []] (fun _ => 0)
    (fun _ => 0)).mpr ⟨by decide +kernel, by decide +kernel, by decide +kernel⟩
  intro i path hi
  fin_cases i
  · cases hi
    decide
  · cases hi
    decide
  · cases hi
    decide

/-- The only file of the entry does not open: the byte in front of `tmpstr` is cleared. -/
theorem namesExact_fails : arrived 1 ⟨7, ![some ⟨[97], by decide⟩, none, none]⟩ = some true ∧
    packed 1 ![5, 0, 0] = 1 ∧
    packFrom roomy ⟨7, ![some ⟨[97], by decide⟩, none, none]⟩ ![5, 0, 0] (fun _ => .noOpen) 1 0
      (.start fun _ => 0) = some (.start fun _ => 0) ∧
    ¬ NamesExact 1 ⟨7, ![some ⟨[97], by decide⟩, none, none]⟩ ![5, 0, 0] (fun _ => .noOpen)
      (fun _ => 0) (fun _ => 0) := by
  refine ⟨rfl, by decide +kernel, rfl, ?_⟩
  rintro ⟨p, hp, hne, _⟩
  obtain rfl : Pack.start (fun _ => 0) = p := Option.some.inj hp
  exact hne rfl

end JitDt.Lwatcher
