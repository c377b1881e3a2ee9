import JitDt.Lockfile.Model

/-!
# Reading a name list back

`locked_read` and `septype` work on a static buffer and cut it in place. What they find
depends only on the string the buffer holds: it is the split of the first line of what
was published, and no name at all if there was nothing to read, even when the buffer
still holds an earlier list.
-/

namespace JitDt.Lockfile

set_option autoImplicit false

/-- A name that neither the separator nor the end of a line cuts. -/
def Clean (n : CStr) : Prop := ftchrSeparator ∉ n.bytes ∧ newline ∉ n.bytes

instance (n : CStr) : Decidable (Clean n) := inferInstanceAs (Decidable (_ ∧ _))

/-- The bytes of a lock file that holds the list `names`, whatever follows. -/
def Holds (names : List CStr) (content : List UInt8) : Prop :=
  ∃ tail, content = lockedf names ++ 0 :: tail

/-- A lock file that holds no list: empty, or starting with a zero byte. -/
def Blank (content : List UInt8) : Prop := content.headD 0 = 0

instance (content : List UInt8) : Decidable (Blank content) := inferInstanceAs (Decidable (_ = _))

/-! ## What the functions find -/

def firstLine (s : List UInt8) : List UInt8 := s.take (s.idxOf newline)

/-- At most `k` names, each of them ended by a separator. -/
def splitNames : Nat → List UInt8 → List (List UInt8)
  | 0, _ => []
  | k + 1, s =>
    if ftchrSeparator ∈ s then
      s.take (s.idxOf ftchrSeparator) :: splitNames k (s.drop (s.idxOf ftchrSeparator + 1))
    else []

def readBack (names : List CStr) : List (List UInt8) :=
  splitNames ftypeNum (firstLine (lockedf names))

/-- A buffer in which `septype` finds nothing. -/
def NoSeparator (b : List UInt8) : Prop := ftchrSeparator ∉ cstrOf b

theorem notMem_cstrOf_set {ch : UInt8} {b : List UInt8} (h : ch ∉ cstrOf b) (j : Nat) :
    ch ∉ cstrOf (b.set j 0) := by
  intro hmem
  rw [cstrOf_set] at hmem
  exact h (List.mem_of_mem_take hmem)

theorem splitNames_eq_nil {s : List UInt8} (h : ftchrSeparator ∉ s) (k : Nat) :
    splitNames k s = [] := by
  cases k with
  | zero => rfl
  | succ k => simp only [splitNames, if_neg h]

theorem notMem_take_idxOf (ch : UInt8) (s : List UInt8) : ch ∉ s.take (s.idxOf ch) := by
  induction s with
  | nil => simp
  | cons c s ih =>
    by_cases hc : c = ch
    · simp [hc]
    · rw [List.idxOf_cons_ne s hc, List.take_succ_cons, List.mem_cons, not_or]
      exact ⟨fun h => hc h.symm, ih⟩

theorem cstrOf_take (s : List UInt8) (n : Nat) : cstrOf (s.take n) = (cstrOf s).take n := by
  induction s generalizing n with
  | nil => simp [cstrOf]
  | cons c s ih =>
    cases n with
    | zero => simp [cstrOf]
    | succ n =>
      by_cases hc : c = 0
      · simp [cstrOf, hc]
      · simpa [cstrOf, hc] using ih n

/-- `septypeFrom` changes nothing in front of the position it starts at. -/
theorem septypeFrom_take (k : Nat) (b : List UInt8) (p : Nat) :
    (septypeFrom k b p).1.take p = b.take p := by
  induction k generalizing b p with
  | zero => rfl
  | succ k ih =>
    by_cases h : ftchrSeparator ∈ cstrOf (b.drop p)
    · simp only [septypeFrom, cutAt, if_pos h]
      generalize (cstrOf (b.drop p)).idxOf ftchrSeparator = j
      have hrest := congrArg (List.take p) (ih (b.set (p + j) 0) (p + j + 1))
      rw [List.take_take, List.take_take, Nat.min_eq_left (by omega)] at hrest
      rw [hrest, List.take_set_of_le (Nat.le_add_right p j)]
    · simp only [septypeFrom, cutAt, if_neg h]

/-- A string is known from the bytes up to its NUL. -/
theorem cstrOf_of_take {s t : List UInt8} {j : Nat} (h : s.take (j + 1) = t.take (j + 1))
    (ht : (cstrOf t).length = j) : cstrOf s = cstrOf t := by
  have htake := congrArg cstrOf h
  rw [cstrOf_take, cstrOf_take, List.take_of_length_le (by omega : (cstrOf t).length ≤ j + 1)] at htake
  have hlen := congrArg List.length htake
  rw [List.length_take] at hlen
  rw [← htake, List.take_of_length_le (by omega)]

/-- Every pointer still leads to the name that was cut off there. -/
theorem septypeFrom_texts (k : Nat) (b : List UInt8) (p : Nat) :
    texts (septypeFrom k b p).1 (septypeFrom k b p).2 = splitNames k (cstrOf (b.drop p)) := by
  induction k generalizing b p with
  | zero => rfl
  | succ k ih =>
    by_cases h : ftchrSeparator ∈ cstrOf (b.drop p)
    · have hlt := List.idxOf_lt_length_of_mem h
      have hrest : (b.set (p + (cstrOf (b.drop p)).idxOf ftchrSeparator) 0).drop
          (p + (cstrOf (b.drop p)).idxOf ftchrSeparator + 1) =
            (b.drop p).drop ((cstrOf (b.drop p)).idxOf ftchrSeparator + 1) := by
        rw [List.drop_set_of_lt (by omega), List.drop_drop, Nat.add_assoc]
      simp only [septypeFrom, cutAt, if_pos h, splitNames, texts, ih, hrest]
      rw [cstrOf_drop hlt]
      generalize (cstrOf (b.drop p)).idxOf ftchrSeparator = j at hlt ⊢
      have hname : cstrOf ((b.set (p + j) 0).drop p) = (b.drop p).take j := by
        rw [List.drop_set, if_neg (by omega), Nat.add_sub_cancel_left, cstrOf_set,
          take_cstrOf hlt.le]
      have htake := congrArg (List.drop p) (septypeFrom_take k (b.set (p + j) 0) (p + j + 1))
      have hj : p + j + 1 - p = j + 1 := by omega
      rw [List.drop_take, List.drop_take, hj] at htake
      have hlen : ((b.drop p).take j).length = j := by
        rw [← take_cstrOf hlt.le, List.length_take, Nat.min_eq_left hlt.le]
      rw [cstrOf_of_take htake (by rw [hname, hlen]), hname, take_cstrOf hlt.le]
    · simp only [septypeFrom, cutAt, if_neg h, splitNames, texts]

theorem septype_texts (b : List UInt8) :
    texts (septype b).1 (septype b).2 = splitNames ftypeNum (cstrOf b) :=
  septypeFrom_texts ftypeNum b 0

/-- What is stored are positions, and a null pointer if there is a place left for it. -/
theorem septypeFrom_files (k : Nat) (b : List UInt8) (p : Nat) :
    ∃ ps : List Nat, ps.length ≤ k ∧
      (septypeFrom k b p).2 = ps.map some ++ if ps.length < k then [none] else [] := by
  induction k generalizing b p with
  | zero => exact ⟨[], le_rfl, rfl⟩
  | succ k ih =>
    by_cases h : ftchrSeparator ∈ cstrOf (b.drop p)
    · simp only [septypeFrom, cutAt, if_pos h]
      generalize (cstrOf (b.drop p)).idxOf ftchrSeparator = j
      obtain ⟨ps, hlen, hps⟩ := ih (b.set (p + j) 0) (p + j + 1)
      refine ⟨p :: ps, Nat.succ_le_succ hlen, ?_⟩
      rw [hps]
      simp
    · simp only [septypeFrom, cutAt, if_neg h]
      exact ⟨[], Nat.zero_le _, by simp⟩

theorem texts_positions (b : List UInt8) (ps : List Nat) {rest : List (Option Nat)}
    (h : texts b rest = []) : texts b (ps.map some ++ rest) = ps.map fun p => cstrOf (b.drop p) := by
  induction ps with
  | nil => exact h
  | cons p ps ih => rw [List.map_cons, List.cons_append, texts, ih, List.map_cons]

/-- `files[i]` for what `septype` finds: the `i`-th name, the null pointer behind the last one
if there is a place for it, and nothing behind that. -/
theorem septype_entry (b : List UInt8) (i : Nat) :
    fileEntry (septype b).1 (septype b).2 i =
      match (splitNames ftypeNum (cstrOf b))[i]? with
      | some n => .name n
      | none =>
        if i = (splitNames ftypeNum (cstrOf b)).length ∧ i < ftypeNum then .null else .unset := by
  rw [← septype_texts]
  obtain ⟨ps, hlen, hps⟩ := septypeFrom_files ftypeNum b 0
  have htexts : texts (septype b).1 (septype b).2 =
      ps.map fun p => cstrOf ((septype b).1.drop p) := by
    rw [show (septype b).2 = _ from hps]
    exact texts_positions _ _ (by split <;> rfl)
  rw [htexts, show (septype b).2 = _ from hps, List.getElem?_map, List.length_map]
  unfold fileEntry
  rcases Nat.lt_trichotomy i ps.length with hlt | heq | hgt
  · rw [List.getElem?_append_left (by simpa using hlt), List.getElem?_map,
      List.getElem?_eq_getElem hlt]
    rfl
  · rw [List.getElem?_append_right (by simp [heq]), List.getElem?_eq_none heq.ge, List.length_map,
      heq, Nat.sub_self]
    by_cases hk : ps.length < ftypeNum
    · simp [hk]
    · simp [hk]
  · rw [List.getElem?_append_right (by simp [hgt.le]), List.getElem?_eq_none hgt.le, List.length_map]
    have hnone : (if ps.length < ftypeNum then [(none : Option Nat)] else [])[i - ps.length]? = none := by
      apply List.getElem?_eq_none
      split
      · rw [List.length_singleton]
        omega
      · exact Nat.zero_le _
    rw [hnone]
    simp [hgt.ne']

theorem septype_entry_name {b n : List UInt8} {i : Nat} :
    fileEntry (septype b).1 (septype b).2 i = .name n ↔
      (splitNames ftypeNum (cstrOf b))[i]? = some n := by
  rw [septype_entry]
  cases (splitNames ftypeNum (cstrOf b))[i]? with
  | some m => simp
  | none =>
    refine iff_of_false ?_ (by simp)
    intro h
    simp only at h
    split at h <;> cases h

/-- `septype` writes nothing but zero bytes. -/
theorem notMem_cstrOf_septypeFrom {ch : UInt8} {b : List UInt8} (h : ch ∉ cstrOf b) (k p : Nat) :
    ch ∉ cstrOf (septypeFrom k b p).1 := by
  induction k generalizing b p with
  | zero => exact h
  | succ k ih =>
    by_cases hc : ftchrSeparator ∈ cstrOf (b.drop p)
    · simp only [septypeFrom, cutAt, if_pos hc]
      exact ih (notMem_cstrOf_set h _) _
    · simp only [septypeFrom, cutAt, if_neg hc]
      exact h

theorem septype_noSeparator (b : List UInt8) : NoSeparator (septype b).1 := by
  by_cases h : ftchrSeparator ∈ cstrOf b
  · have hcut : NoSeparator (b.set (0 + (cstrOf b).idxOf ftchrSeparator) 0) := by
      unfold NoSeparator
      rw [cstrOf_set, Nat.zero_add]
      exact notMem_take_idxOf _ _
    simp only [septype, ftypeNum, septypeFrom, cutAt, List.drop_zero, if_pos h]
    exact notMem_cstrOf_septypeFrom hcut 2 _
  · simp only [septype, ftypeNum, septypeFrom, cutAt, List.drop_zero, if_neg h]
    exact h

def received (content : List UInt8) (ok : Bool) (b : List UInt8) : List UInt8 :=
  if ok then content.take pathMax ++ b.drop (content.take pathMax).length else b

theorem locked_read_string (content : List UInt8) (ok : Bool) (b : List UInt8) :
    cstrOf (locked_read content ok b).2 = firstLine (cstrOf (received content ok b)) := by
  unfold firstLine
  by_cases h : newline ∈ cstrOf (received content ok b)
  · have hcut : cutAt newline (received content ok b) 0 =
        some ((cstrOf (received content ok b)).idxOf newline,
          (received content ok b).set ((cstrOf (received content ok b)).idxOf newline) 0) := by
      simp only [cutAt, List.drop_zero, Nat.zero_add, if_pos h]
    have hread : (locked_read content ok b).2 =
        (received content ok b).set ((cstrOf (received content ok b)).idxOf newline) 0 := by
      unfold locked_read
      simp only
      rw [← received, hcut]
    rw [hread, cstrOf_set]
  · have hcut : cutAt newline (received content ok b) 0 = none := by
      simp only [cutAt, List.drop_zero, if_neg h]
    have hread : (locked_read content ok b).2 = received content ok b := by
      unfold locked_read
      simp only
      rw [← received, hcut]
    rw [hread, List.idxOf_eq_length h, List.take_length]

/-- The part of the first line that the size returned by `read` covers. -/
theorem terminate_string (content : List UInt8) (ok : Bool) (b : List UInt8) :
    cstrOf (terminate (locked_read content ok b).1 (locked_read content ok b).2) =
      if ok then (firstLine (cstrOf (received content ok b))).take (content.take pathMax).length
      else firstLine (cstrOf (received content ok b)) := by
  rw [← locked_read_string]
  cases ok with
  | false => rfl
  | true => exact cstrOf_set _ _

theorem readNames_buffer (content : List UInt8) (ok : Bool) (b : List UInt8) :
    NoSeparator (readNames content ok b).1 := by
  unfold readNames
  simp only
  split
  · rename_i hzero
    unfold NoSeparator
    rw [cstrOf_eq_nil_iff.mpr hzero]
    simp
  · exact septype_noSeparator _

/-- A buffer never keeps a line end: `locked_read` cuts there. -/
theorem readNames_newline (content : List UInt8) (ok : Bool) (b : List UInt8) :
    newline ∉ cstrOf (readNames content ok b).1 := by
  have hread : newline ∉ cstrOf (locked_read content ok b).2 := by
    rw [locked_read_string]
    exact notMem_take_idxOf _ _
  unfold readNames
  simp only
  split
  · exact hread
  · apply notMem_cstrOf_septypeFrom
    unfold terminate
    split
    · exact hread
    · exact notMem_cstrOf_set hread _

theorem readNames_names (content : List UInt8) (ok : Bool) (b : List UInt8) :
    (readNames content ok b).2 =
      if firstLine (cstrOf (received content ok b)) = [] then none
      else some (splitNames ftypeNum (if ok then
        (firstLine (cstrOf (received content ok b))).take (content.take pathMax).length
        else firstLine (cstrOf (received content ok b)))) := by
  rw [← terminate_string, ← locked_read_string]
  unfold readNames
  simp only [← cstrOf_eq_nil_iff]
  split
  · rfl
  · rw [septype_texts]

/-! ## A file without a list -/

theorem firstLine_subset (s : List UInt8) : firstLine s ⊆ s := List.take_subset _ _

/-- A blank file or a failed read yields no name, whatever the buffer held. -/
theorem readNames_blank {content b : List UInt8} {ok : Bool} (hb : NoSeparator b)
    (h : ok = true → Blank content) :
    (readNames content ok b).2 = none ∨ (readNames content ok b).2 = some [] := by
  have hbuf : NoSeparator (received content ok b) := by
    unfold received
    cases ok with
    | false => exact hb
    | true =>
      have hblank := h rfl
      cases content with
      | nil => simpa using hb
      | cons c content =>
        obtain rfl : c = 0 := hblank
        simp [NoSeparator, cstrOf, pathMax]
  have hline : ftchrSeparator ∉ firstLine (cstrOf (received content ok b)) :=
    fun hmem => hbuf (firstLine_subset _ hmem)
  rw [readNames_names]
  split
  · exact Or.inl rfl
  · refine Or.inr ?_
    rw [splitNames_eq_nil]
    split
    · exact fun hmem => hline (List.mem_of_mem_take hmem)
    · exact hline

/-! ## A file with a list -/

theorem lockedf_length_le {names : List CStr} (h : ∀ n ∈ names, n.bytes.length < 128) :
    (lockedf names).length ≤ names.length * 128 := by
  induction names with
  | nil => simp [lockedf]
  | cons n names ih =>
    have hn := h n (by simp)
    have hrest := ih fun m hm => h m (List.mem_cons_of_mem n hm)
    have hcons : lockedf (n :: names) = n.bytes ++ [ftchrSeparator] ++ lockedf names := rfl
    rw [hcons, List.length_append, List.length_append, List.length_cons, List.length_cons,
      List.length_nil]
    omega

theorem lockedf_length {names : List CStr} (h : FitsTables names) :
    (lockedf names).length < pathMax := by
  obtain ⟨_, hlen, hshort⟩ := h
  have hsum := lockedf_length_le hshort
  unfold ftypeNum at hlen
  unfold pathMax
  omega

theorem lockedf_nul_free (names : List CStr) : (0 : UInt8) ∉ lockedf names := by
  intro h
  obtain ⟨n, _, hn⟩ := List.mem_flatMap.mp h
  rcases List.mem_append.mp hn with hn | hn
  · exact n.nul_free hn
  · exact absurd hn (by decide)

/-- A list that fits the buffer is read together with its NUL. -/
theorem received_holds {names : List CStr} {content : List UInt8} (h : Holds names content)
    (hlen : (lockedf names).length < pathMax) (b : List UInt8) :
    cstrOf (received content true b) = lockedf names := by
  obtain ⟨tail, rfl⟩ := h
  obtain ⟨k, hk⟩ : ∃ k, pathMax = (lockedf names).length + (k + 1) :=
    ⟨pathMax - (lockedf names).length - 1, by omega⟩
  have hdata : (lockedf names ++ 0 :: tail).take pathMax = lockedf names ++ 0 :: tail.take k := by
    rw [hk, List.take_append, List.take_of_length_le (by omega)]
    simp
  unfold received
  rw [if_pos rfl, hdata, List.append_assoc, cstrOf_append (lockedf_nul_free names)]
  simp [cstrOf]

theorem firstLine_length_le (s : List UInt8) : (firstLine s).length ≤ s.length := by
  unfold firstLine
  exact List.length_take_le' _ _

theorem Holds.length_le {names : List CStr} {content : List UInt8} (h : Holds names content) :
    (lockedf names).length ≤ content.length := by
  obtain ⟨tail, rfl⟩ := h
  rw [List.length_append]
  exact Nat.le_add_right _ _

/-- A published list is read back up to the end of its first line. -/
theorem readNames_holds {names : List CStr} {content b : List UInt8} (hfit : FitsTables names)
    (h : Holds names content) :
    (readNames content true b).2 =
      if firstLine (lockedf names) = [] then none else some (readBack names) := by
  have hlen := lockedf_length hfit
  have hcovered : (firstLine (lockedf names)).length ≤ (content.take pathMax).length := by
    rw [List.length_take]
    exact (firstLine_length_le _).trans (Nat.le_min.mpr ⟨hlen.le, h.length_le⟩)
  rw [readNames_names, received_holds h hlen, if_pos rfl, List.take_of_length_le hcovered]
  rfl

/-- Names without line ends are one line. -/
theorem firstLine_lockedf {names : List CStr} (h : newline ∉ lockedf names) :
    firstLine (lockedf names) = lockedf names := by
  unfold firstLine
  rw [List.idxOf_eq_length h, List.take_length]

theorem newline_notMem_lockedf {names : List CStr} (h : ∀ n ∈ names, Clean n) :
    newline ∉ lockedf names := by
  intro hmem
  obtain ⟨n, hn, hb⟩ := List.mem_flatMap.mp hmem
  rcases List.mem_append.mp hb with hb | hb
  · exact (h n hn).2 hb
  · exact absurd hb (by decide)

theorem splitNames_lockedf {names : List CStr} (hclean : ∀ n ∈ names, Clean n) {k : Nat}
    (hk : names.length ≤ k) : splitNames k (lockedf names) = names.map CStr.bytes := by
  induction names generalizing k with
  | nil => exact splitNames_eq_nil (by simp [lockedf]) k
  | cons n names ih =>
    obtain ⟨k, rfl⟩ : ∃ k', k = k' + 1 := ⟨k - 1, by simp at hk; omega⟩
    have hcons : lockedf (n :: names) = n.bytes ++ ftchrSeparator :: lockedf names := by
      simp [lockedf]
    have hidx : (lockedf (n :: names)).idxOf ftchrSeparator = n.bytes.length := by
      rw [hcons, List.idxOf_append_of_notMem (hclean n (by simp)).1]
      simp
    have hmem : ftchrSeparator ∈ lockedf (n :: names) := by simp [hcons]
    have hrest := ih (fun m hm => hclean m (List.mem_cons_of_mem n hm)) (k := k)
      (by simpa using hk)
    have hdrop : (lockedf (n :: names)).drop (n.bytes.length + 1) = lockedf names := by
      rw [hcons, ← List.drop_drop, List.drop_left]
      rfl
    rw [splitNames, if_pos hmem, hidx, hdrop, hrest, hcons, List.take_left]
    rfl

theorem readBack_clean {names : List CStr} (hfit : FitsTables names)
    (hclean : ∀ n ∈ names, Clean n) : readBack names = names.map CStr.bytes := by
  unfold readBack
  rw [firstLine_lockedf (newline_notMem_lockedf hclean), splitNames_lockedf hclean hfit.2.1]

end JitDt.Lockfile
