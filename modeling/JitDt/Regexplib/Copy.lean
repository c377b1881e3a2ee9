import JitDt.Regexplib.Match

/-!
# The copy of a format

`matchedcopy` replaces each `$d` of a format by the text of a group. It takes the character behind
a `$` for a digit without a test and does not know the size of the buffer, and the formats of the
configuration file are bounded in length only. The bytes `copy` writes are those of `matchedcopy`,
and it ends where an index or a byte lies outside of its array.
-/

namespace JitDt.Regexplib

set_option autoImplicit false

def nmatch : Nat := 10

/-- The size of the buffers of all callers. -/
def bufSize : Nat := 128

/-- The name with the offsets of a match: a group lies in the name, or took no part. -/
structure Offsets (name : CStr) where
  pmatch : Nat → Int × Int
  valid : ∀ i < nmatch, pmatch i = (-1, -1) ∨
    0 ≤ (pmatch i).1 ∧ (pmatch i).1 ≤ (pmatch i).2 ∧ (pmatch i).2 ≤ name.bytes.length

/-! ## The function -/

inductive CopyFault where
  /-- A `$` is the last character: the terminator gives the index and is stepped over. -/
  | pastEnd
  | index (pos : Int)
  | offsets
  | full
deriving DecidableEq

/-- The text is written into the bytes that are left of the buffer, and the rest behind it. -/
def store (text : List UInt8) (room : Nat) (rest : Nat → Except CopyFault (List UInt8)) :
    Except CopyFault (List UInt8) :=
  if text.length ≤ room then (rest (room - text.length)).map (text ++ ·) else .error .full

/-- What is written, the last zero byte included. -/
def copy (name : List UInt8) (pmatch : Nat → Int × Int) :
    List UInt8 → Nat → Except CopyFault (List UInt8)
  | [], room => store [0] room fun _ => .ok []
  | c :: fmt, room =>
    if c = '$'.toUInt8 then
      match fmt with
      | [] => .error .pastEnd
      | d :: fmt =>
        let pos : Int := d.toNat - '0'.toNat
        if pos < 0 ∨ nmatch ≤ pos then .error (.index pos)
        else
          match group name (pmatch pos.toNat) with
          | none => .error .offsets
          | some text => store text room (copy name pmatch fmt)
    else store [c] room (copy name pmatch fmt)

/-! ## The substitution -/

def groupText (name : List UInt8) (m : Int × Int) : List UInt8 :=
  if m.1 = -1 then [] else (name.drop m.1.toNat).take (m.2 - m.1).toNat

/-- The format with each `$d` replaced by the text of group `d`. -/
inductive Substitution (name : List UInt8) (pmatch : Nat → Int × Int) :
    List UInt8 → List UInt8 → Prop where
  | nil : Substitution name pmatch [] []
  | char {c : UInt8} {fmt text : List UInt8} : c ≠ '$'.toUInt8 →
      Substitution name pmatch fmt text → Substitution name pmatch (c :: fmt) (c :: text)
  | group {d : UInt8} {fmt text : List UInt8} : isdigit d = true →
      Substitution name pmatch fmt text → Substitution name pmatch ('$'.toUInt8 :: d :: fmt)
        (groupText name (pmatch (d.toNat - '0'.toNat)) ++ text)

/-- The copy stays within the format, the offsets and the buffer, and writes the substitution. -/
def Exact (fmt name : CStr) (m : Offsets name) : Prop :=
  ∃ text, Substitution name.bytes m.pmatch fmt.bytes text ∧
    copy name.bytes m.pmatch fmt.bytes bufSize = .ok (text ++ [0])

/-- A digit stands behind every `$`. -/
def References (fmt : List UInt8) : Prop :=
  ∀ k < fmt.length, fmt[k]? = some '$'.toUInt8 → fmt[k + 1]?.any isdigit = true

instance (fmt : List UInt8) : Decidable (References fmt) :=
  inferInstanceAs (Decidable (∀ k < fmt.length, _ → _))

/-- The lengths of the groups whose digits stand behind the `$`s. -/
def inserted (pmatch : Nat → Int × Int) (fmt : List UInt8) : Nat :=
  ((fmt.zip fmt.tail).map fun x =>
    if x.1 = '$'.toUInt8 then
      ((pmatch (x.2.toNat - '0'.toNat)).2 - (pmatch (x.2.toNat - '0'.toNat)).1).toNat
    else 0).sum

/-- The format without its references and the texts of their groups, with the last zero byte, have
room in the buffer. -/
def Fits (pmatch : Nat → Int × Int) (fmt : List UInt8) : Prop :=
  fmt.length + inserted pmatch fmt < bufSize + 2 * fmt.count '$'.toUInt8

/-! ## The copy and the substitution -/

section Copy
variable {name fmt text out : List UInt8} {pmatch : Nat → Int × Int} {room : Nat} {c d : UInt8}

theorem store_eq_ok_iff {rest : Nat → Except CopyFault (List UInt8)} :
    store text room rest = .ok out ↔
      text.length ≤ room ∧ ∃ r, rest (room - text.length) = .ok r ∧ out = text ++ r := by
  unfold store
  split
  · rename_i hle
    cases rest (room - text.length) with
    | error e => simp [Except.map]
    | ok r => simp [Except.map, hle, eq_comm]
  · rename_i hle
    simp [hle]

theorem isdigit_iff : isdigit d = true ↔ 48 ≤ d.toNat ∧ d.toNat ≤ 57 := by
  unfold isdigit
  rw [Bool.and_eq_true, decide_eq_true_eq, decide_eq_true_eq, UInt8.le_iff_toNat_le,
    UInt8.le_iff_toNat_le]
  rfl

/-- Only the digits give an index of `pmatch`. -/
theorem index_iff : ¬ ((d.toNat : Int) - '0'.toNat < 0 ∨ (nmatch : Int) ≤ d.toNat - '0'.toNat) ↔
    isdigit d = true := by
  rw [isdigit_iff]
  change ¬ ((d.toNat : Int) - 48 < 0 ∨ (10 : Int) ≤ d.toNat - 48) ↔ _
  omega

theorem index_toNat : ((d.toNat : Int) - '0'.toNat).toNat = d.toNat - '0'.toNat := by
  omega

/-! What each character does. -/

theorem matchedcopy_digit (h : isdigit d = true) :
    matchedcopy name pmatch ('$'.toUInt8 :: d :: fmt) =
      (group name (pmatch (d.toNat - '0'.toNat))).bind fun text =>
        (matchedcopy name pmatch fmt).map (text ++ ·) := by
  rw [matchedcopy, if_pos rfl, if_pos h]
  refine congrArg (Option.bind _) (funext fun text => ?_)
  rw [Option.map_eq_bind]
  rfl

theorem matchedcopy_other (h : ¬ isdigit d = true) :
    matchedcopy name pmatch ('$'.toUInt8 :: d :: fmt) = none := by
  rw [matchedcopy, if_pos rfl]
  exact if_neg h

theorem matchedcopy_char (h : c ≠ '$'.toUInt8) :
    matchedcopy name pmatch (c :: fmt) = (matchedcopy name pmatch fmt).map (c :: ·) := by
  rw [matchedcopy.eq_def]
  exact if_neg h

theorem copy_digit (h : isdigit d = true) : copy name pmatch ('$'.toUInt8 :: d :: fmt) room =
    (group name (pmatch (d.toNat - '0'.toNat))).elim (.error .offsets) fun text =>
      store text room (copy name pmatch fmt) := by
  rw [copy, if_pos rfl]
  simp only
  rw [if_neg (index_iff.mpr h), index_toNat]
  cases group name (pmatch (d.toNat - '0'.toNat)) <;> rfl

theorem copy_other (h : ¬ isdigit d = true) : copy name pmatch ('$'.toUInt8 :: d :: fmt) room =
    .error (.index (d.toNat - '0'.toNat)) := by
  rw [copy, if_pos rfl]
  exact if_pos (not_not.mp (mt index_iff.mp h))

theorem copy_char (h : c ≠ '$'.toUInt8) :
    copy name pmatch (c :: fmt) room = store [c] room (copy name pmatch fmt) := by
  rw [copy.eq_def]
  exact if_neg h

/-- The bounded copy writes what `matchedcopy` copies, if the buffer has room for it. -/
theorem copy_eq_ok_iff : copy name pmatch fmt room = .ok out ↔
    ∃ text, matchedcopy name pmatch fmt = some text ∧ text.length < room ∧ out = text ++ [0] := by
  induction fmt using matchedcopy.induct generalizing room out with
  | case1 =>
    rw [copy, store_eq_ok_iff, matchedcopy]
    simp only [List.length_singleton, Except.ok.injEq, Option.some.injEq, exists_eq_left',
      List.append_nil, List.length_nil, List.nil_append, Nat.succ_le_iff]
  | case2 =>
    rw [copy, if_pos rfl, matchedcopy, if_pos rfl]
    simp
  | case3 d fmt hd ih =>
    rw [copy_digit hd, matchedcopy_digit hd]
    cases group name (pmatch (d.toNat - '0'.toNat)) with
    | none => simp
    | some piece =>
      rw [Option.elim_some, store_eq_ok_iff]
      simp only [ih, Option.bind_some, Option.map_eq_some_iff]
      constructor
      · rintro ⟨hle, r, ⟨text, htext, hlt, rfl⟩, rfl⟩
        refine ⟨piece ++ text, ⟨text, htext, rfl⟩, ?_, (List.append_assoc _ _ _).symm⟩
        rw [List.length_append]
        omega
      · rintro ⟨_, ⟨text, htext, rfl⟩, hlt, rfl⟩
        rw [List.length_append] at hlt
        exact ⟨by omega, text ++ [0], ⟨text, htext, by omega, rfl⟩, List.append_assoc _ _ _⟩
  | case4 d fmt hd =>
    rw [copy_other hd, matchedcopy_other hd]
    simp
  | case5 c fmt hc ih =>
    rw [copy_char hc, matchedcopy_char hc, store_eq_ok_iff]
    simp only [ih, List.length_singleton, Option.map_eq_some_iff]
    constructor
    · rintro ⟨hle, r, ⟨text, htext, hlt, rfl⟩, rfl⟩
      refine ⟨c :: text, ⟨text, htext, rfl⟩, ?_, rfl⟩
      rw [List.length_cons]
      omega
    · rintro ⟨_, ⟨text, htext, rfl⟩, hlt, rfl⟩
      rw [List.length_cons] at hlt
      exact ⟨by omega, text ++ [0], ⟨text, htext, by omega, rfl⟩, rfl⟩

end Copy

/-! ## The formats that can be copied -/

section Formats
variable {fmt text out : List UInt8} {name : CStr} {m : Offsets name} {c d : UInt8}

theorem index_lt (h : isdigit d = true) : d.toNat - '0'.toNat < nmatch := by
  have hd := isdigit_iff.mp h
  change d.toNat - 48 < 10
  omega

theorem isdigit_ne_dollar (h : isdigit d = true) : d ≠ '$'.toUInt8 := by
  rintro rfl
  exact absurd h (by decide)

theorem group_valid (m : Offsets name) {i : Nat} (h : i < nmatch) :
    group name.bytes (m.pmatch i) = some (groupText name.bytes (m.pmatch i)) := by
  unfold group groupText
  rcases m.valid i h with hnone | ⟨hso, hle, heo⟩
  · rw [hnone]
    rfl
  · have hne : (m.pmatch i).1 ≠ -1 := by omega
    rw [if_neg hne]
    by_cases h0 : (m.pmatch i).2 - (m.pmatch i).1 = 0
    · rw [if_pos h0, h0]
      simp
    · rw [if_neg h0, if_pos ⟨hso, hle, heo⟩]

theorem groupText_length (m : Offsets name) {i : Nat} (h : i < nmatch) :
    (groupText name.bytes (m.pmatch i)).length = ((m.pmatch i).2 - (m.pmatch i).1).toNat := by
  unfold groupText
  rcases m.valid i h with hnone | ⟨hso, hle, heo⟩
  · rw [hnone]
    rfl
  · have hne : (m.pmatch i).1 ≠ -1 := by omega
    rw [if_neg hne, List.length_take, List.length_drop]
    omega

theorem matchedcopy_iff : matchedcopy name.bytes m.pmatch fmt = some text ↔
    Substitution name.bytes m.pmatch fmt text := by
  constructor
  · intro h
    induction fmt using matchedcopy.induct generalizing text with
    | case1 =>
      cases h
      exact .nil
    | case2 => cases h
    | case3 d fmt hd ih =>
      rw [matchedcopy_digit hd, group_valid m (index_lt hd), Option.bind_some] at h
      obtain ⟨rest, hrest, rfl⟩ := Option.map_eq_some_iff.mp h
      exact .group hd (ih hrest)
    | case4 d fmt hd =>
      rw [matchedcopy_other hd] at h
      cases h
    | case5 c fmt hc ih =>
      rw [matchedcopy_char hc] at h
      obtain ⟨rest, hrest, rfl⟩ := Option.map_eq_some_iff.mp h
      exact .char hc (ih hrest)
  · intro h
    induction h with
    | nil => rfl
    | char hc _ ih => rw [matchedcopy_char hc, ih, Option.map_some]
    | group hd _ ih =>
      rw [matchedcopy_digit hd, group_valid m (index_lt hd), Option.bind_some, ih, Option.map_some]

theorem references_cons_iff (h : c ≠ '$'.toUInt8) : References (c :: fmt) ↔ References fmt := by
  constructor
  · intro hall k hk hdollar
    exact hall (k + 1) (Nat.succ_lt_succ hk) hdollar
  · intro hall k hk hdollar
    cases k with
    | zero => exact absurd (Option.some.inj hdollar) h
    | succ k => exact hall k (Nat.lt_of_succ_lt_succ hk) hdollar

theorem references_digit_iff :
    References ('$'.toUInt8 :: d :: fmt) ↔ isdigit d = true ∧ References fmt := by
  constructor
  · intro hall
    have hd : isdigit d = true := hall 0 (Nat.succ_pos _) rfl
    refine ⟨hd, ?_⟩
    intro k hk hdollar
    exact hall (k + 2) (Nat.add_lt_add_right hk 2) hdollar
  · rintro ⟨hd, hall⟩ k hk hdollar
    match k with
    | 0 => exact hd
    | 1 => exact absurd (Option.some.inj hdollar) (isdigit_ne_dollar hd)
    | k + 2 => exact hall k (Nat.lt_of_add_lt_add_right hk) hdollar

/-- A format has a substitution exactly if a digit stands behind every `$`. -/
theorem exists_substitution_iff (m : Offsets name) (fmt : List UInt8) :
    (∃ text, Substitution name.bytes m.pmatch fmt text) ↔ References fmt := by
  induction fmt using matchedcopy.induct with
  | case1 => exact iff_of_true ⟨[], .nil⟩ fun k hk => absurd hk (Nat.not_lt_zero k)
  | case2 =>
    refine iff_of_false ?_ (by decide)
    rintro ⟨text, h⟩
    cases h with
    | char hc _ => exact hc rfl
  | case3 d fmt hd ih =>
    rw [references_digit_iff, ← ih]
    constructor
    · rintro ⟨text, h⟩
      cases h with
      | char hc _ => exact absurd rfl hc
      | group _ h => exact ⟨hd, _, h⟩
    · rintro ⟨_, text, h⟩
      exact ⟨_, .group hd h⟩
  | case4 d fmt hd =>
    rw [references_digit_iff]
    refine iff_of_false ?_ fun h => hd h.1
    rintro ⟨text, h⟩
    cases h with
    | char hc _ => exact hc rfl
    | group hd' _ => exact hd hd'
  | case5 c fmt hc ih =>
    rw [references_cons_iff hc, ← ih]
    constructor
    · rintro ⟨text, h⟩
      cases h with
      | char _ h => exact ⟨_, h⟩
      | group _ _ => exact absurd rfl hc
    · rintro ⟨text, h⟩
      exact ⟨_, .char hc h⟩

theorem inserted_char (pmatch : Nat → Int × Int) (h : c ≠ '$'.toUInt8) :
    inserted pmatch (c :: fmt) = inserted pmatch fmt := by
  unfold inserted
  cases fmt with
  | nil => rfl
  | cons d fmt =>
    rw [List.tail_cons, List.zip_cons_cons, List.map_cons, if_neg h, List.sum_cons, Nat.zero_add]
    rfl

theorem inserted_digit (m : Offsets name) (h : isdigit d = true) :
    inserted m.pmatch ('$'.toUInt8 :: d :: fmt) =
      (groupText name.bytes (m.pmatch (d.toNat - '0'.toNat))).length + inserted m.pmatch fmt := by
  have hrest : inserted m.pmatch (d :: fmt) = inserted m.pmatch fmt :=
    inserted_char m.pmatch (isdigit_ne_dollar h)
  rw [groupText_length m (index_lt h), ← hrest]
  rfl

/-- Every reference takes two characters of the format and puts in the text of its group. -/
theorem Substitution.length (h : Substitution name.bytes m.pmatch fmt text) :
    text.length + 2 * fmt.count '$'.toUInt8 = fmt.length + inserted m.pmatch fmt := by
  induction h with
  | nil => rfl
  | char hc _ ih =>
    rw [inserted_char m.pmatch hc, List.count_cons_of_ne hc, List.length_cons, List.length_cons]
    omega
  | group hd _ ih =>
    rw [inserted_digit m hd, List.count_cons_self, List.count_cons_of_ne (isdigit_ne_dollar hd),
      List.length_append, List.length_cons, List.length_cons]
    omega

end Formats

/-- A format is copied exactly, for all names and matches, if and only if a digit stands behind
every `$` and the result has room. -/
theorem copy_exact_iff (fmt name : CStr) (m : Offsets name) :
    Exact fmt name m ↔ References fmt.bytes ∧ Fits m.pmatch fmt.bytes := by
  have hlen : ∀ text, Substitution name.bytes m.pmatch fmt.bytes text →
      (text.length < bufSize ↔ Fits m.pmatch fmt.bytes) := by
    intro text h
    have := h.length
    unfold Fits
    omega
  rw [← exists_substitution_iff m]
  constructor
  · rintro ⟨text, hsub, hcopy⟩
    obtain ⟨text', htext, hlt, heq⟩ := copy_eq_ok_iff.mp hcopy
    have hsame : text = text' := List.append_cancel_right heq
    rw [← hsame] at hlt
    exact ⟨⟨text, hsub⟩, (hlen text hsub).mp hlt⟩
  · rintro ⟨⟨text, hsub⟩, hfits⟩
    exact ⟨text, hsub, copy_eq_ok_iff.mpr ⟨text, matchedcopy_iff.mpr hsub,
      (hlen text hsub).mpr hfits, rfl⟩⟩

theorem nul_free_dat : 0 ∉ ascii "x.dat" := by decide

/-- `x.dat`, matched by `dat`. -/
def dataName : CStr := ⟨ascii "x.dat", nul_free_dat⟩

theorem valid_dataName : ∀ i < nmatch, (wordExec (ascii "dat") dataName.bytes).2 i = (-1, -1) ∨
    0 ≤ ((wordExec (ascii "dat") dataName.bytes).2 i).1 ∧
    ((wordExec (ascii "dat") dataName.bytes).2 i).1 ≤
      ((wordExec (ascii "dat") dataName.bytes).2 i).2 ∧
    ((wordExec (ascii "dat") dataName.bytes).2 i).2 ≤ dataName.bytes.length := by decide

def dataMatch : Offsets dataName := ⟨(wordExec (ascii "dat") dataName.bytes).2, valid_dataName⟩

/-- A configuration with the format `$` is accepted, and the copy goes past the end of the
format. -/
theorem dollar_copied : ∃ m, regex_init words true
      (some (ascii "region a\x7bpattern=dat date=\"$\"\x7d")) [] = some (.ok m) ∧
    ∃ fmt : CStr, (m.tables.conf 0).c_date = fmt.bytes ∧
      copy dataName.bytes dataMatch.pmatch fmt.bytes bufSize = .error .pastEnd ∧
      ¬ Exact fmt dataName dataMatch := by
  have heval : (Option.any (fun x => x.toOption.any fun m =>
      (m.tables.conf 0).c_date = ascii "$") (regex_init words true
      (some (ascii "region a\x7bpattern=dat date=\"$\"\x7d")) [])) = true := by decide +kernel
  obtain ⟨m, hm, hdate⟩ := exists_of_any heval
  refine ⟨m, hm, ⟨ascii "$", by decide⟩, of_decide_eq_true hdate, rfl, ?_⟩
  rintro ⟨text, -, hcopy⟩
  cases hcopy

/-- A date of two groups. -/
example : copy (ascii "20.dat") (fun i => if i = 1 then (0, 2) else (-1, -1)) (ascii "$1-$2") 128 =
    .ok (ascii "20-" ++ [0]) := by decide

end JitDt.Regexplib
