import JitDt.Lockfile.Jitopen

/-!
# A lock file is a place for one message

`locked_write` and `locked_unlock_nullify` overwrite the beginning of the file and leave the
rest of it. A reader still finds what was stored last, and nothing of what was there before:
both end their text with a NUL, and neither `locked_read` nor `septype` looks behind it.
-/

namespace JitDt.Lockfile

set_option autoImplicit false

/-- What may be published: names that can be told apart again and fit the buffer of a reader. -/
structure Message where
  names : List CStr
  count : names.length ≤ ftypeNum
  nonempty : ∀ n ∈ names, n.bytes ≠ []
  clean : ∀ n ∈ names, Clean n
  short : (lockedf names).length < pathMax

/-- An operation on a descriptor that was just opened. -/
inductive Access where
  | write (m : Message)
  | nullify

namespace Access

def apply (content : List UInt8) : Access → List UInt8
  | .write m => locked_write content (lockedf m.names)
  | .nullify => Lockfile.nullify content

/-- What the place holds afterwards. -/
def names : Access → List CStr
  | .write m => m.names
  | .nullify => []

end Access

def accesses (content : List UInt8) (as : List Access) : List UInt8 := as.foldl Access.apply content

/-- The place of a mailbox after these accesses; `none` as long as nothing is known of it. -/
def place (o : Option (List CStr)) (as : List Access) : Option (List CStr) :=
  as.foldl (fun _ a => some a.names) o

/-- The file holds what is in the place. -/
def Shows (o : Option (List CStr)) (content : List UInt8) : Prop := ∀ names ∈ o, Holds names content

/-! ## The file -/

namespace Access

variable (a : Access)

theorem count : a.names.length ≤ ftypeNum := by
  cases a with
  | write m => exact m.count
  | nullify => exact Nat.zero_le _

theorem clean : ∀ n ∈ a.names, Clean n := by
  cases a with
  | write m => exact m.clean
  | nullify => simp [names]

theorem short : (lockedf a.names).length < pathMax := by
  cases a with
  | write m => exact m.short
  | nullify => decide

/-- Whatever the file held, it holds the names of the access afterwards. -/
theorem holds_apply (content : List UInt8) : Holds a.names (a.apply content) := by
  cases a with
  | write m => exact ⟨content.drop ((lockedf m.names).length + 1), by simp [apply, names, locked_write]⟩
  | nullify => exact ⟨[0, 0, 0] ++ content.drop 4, rfl⟩

end Access

theorem shows_none (content : List UInt8) : Shows none content := by
  intro names h
  cases h

/-- The file refines the mailbox. -/
theorem shows_accesses {o : Option (List CStr)} {content : List UInt8} (h : Shows o content)
    (as : List Access) : Shows (place o as) (accesses content as) := by
  induction as generalizing o content with
  | nil => exact h
  | cons a as ih =>
    have hstep : Shows (some a.names) (a.apply content) := by
      intro names hnames
      obtain rfl : a.names = names := Option.some.inj hnames
      exact a.holds_apply content
    exact ih hstep

theorem place_concat (o : Option (List CStr)) (as : List Access) (a : Access) :
    place o (as ++ [a]) = some a.names := List.foldl_concat _ _ _ _

/-! ## A reader -/

theorem locked_read_holds {names : List CStr} {content : List UInt8} (h : Holds names content)
    (hshort : (lockedf names).length < pathMax) (hclean : ∀ n ∈ names, Clean n)
    (buf : List UInt8) : cstrOf (locked_read content true buf).2 = lockedf names := by
  rw [locked_read_string, received_holds h hshort buf,
    firstLine_lockedf (newline_notMem_lockedf hclean)]

/-- `septype` on a buffer with the string `lockedf names`: `files[i]` is the `i`-th name, the
next place is set to null if there is one, and the places behind it are not set. -/
structure Separated (names : List CStr) (b : List UInt8) : Prop where
  name : ∀ i n, names[i]? = some n → fileEntry (septype b).1 (septype b).2 i = .name n.bytes
  null : names.length < ftypeNum → fileEntry (septype b).1 (septype b).2 names.length = .null
  unset : ∀ i, names.length < i ∨ ftypeNum ≤ i → fileEntry (septype b).1 (septype b).2 i = .unset

theorem separated {names : List CStr} (hcount : names.length ≤ ftypeNum)
    (hclean : ∀ n ∈ names, Clean n) {b : List UInt8} (h : cstrOf b = lockedf names) :
    Separated names b := by
  have hsplit : splitNames ftypeNum (cstrOf b) = names.map CStr.bytes := by
    rw [h, splitNames_lockedf hclean hcount]
  refine ⟨fun i n hn => ?_, fun hlt => ?_, fun i hi => ?_⟩
  · rw [septype_entry_name, hsplit, List.getElem?_map, hn]
    rfl
  · rw [septype_entry, hsplit, List.getElem?_eq_none (by simp)]
    simp [hlt]
  · have hout : names.length ≤ i := by omega
    rw [septype_entry, hsplit, List.getElem?_eq_none (by simpa using hout)]
    simp only [List.length_map]
    exact if_neg (by omega)

/-- Whatever happened before, a reader finds what the last access left, and `septype` the names
in it. -/
theorem locked_read_last (content : List UInt8) (as : List Access) (a : Access)
    (buf : List UInt8) :
    cstrOf (locked_read (accesses content (as ++ [a])) true buf).2 = lockedf a.names ∧
      Separated a.names (locked_read (accesses content (as ++ [a])) true buf).2 := by
  have hholds : Holds a.names (accesses content (as ++ [a])) :=
    shows_accesses (shows_none content) (as ++ [a]) a.names (place_concat none as a)
  have hread := locked_read_holds hholds a.short a.clean buf
  exact ⟨hread, separated a.count a.clean hread⟩

/-- Two names, `a` and `bc`. -/
def twoNames : Message where
  names := [⟨[97], by decide⟩, ⟨[98, 99], by decide⟩]
  count := by decide
  nonempty := by decide
  clean := by decide
  short := by decide

/-- They are written over a longer list that was nullified, `abcdef;gh;ij;`: the file still
ends in its bytes, and a reader finds the two names, a null pointer, and nothing else. -/
theorem locked_read_last_two (buf : List UInt8) :
    let content := accesses [97, 98, 99, 100, 101, 102, 59, 103, 104, 59, 105, 106, 59, 0]
      [.nullify, .write twoNames]
    let b := (locked_read content true buf).2
    content = [97, 59, 98, 99, 59, 0, 59, 103, 104, 59, 105, 106, 59, 0] ∧
      cstrOf b = [97, 59, 98, 99, 59] ∧
        [0, 1, 2, 3].map (fileEntry (septype b).1 (septype b).2) =
          [.name [97], .name [98, 99], .null, .unset] := by
  obtain ⟨hread, hfiles⟩ := locked_read_last
    [97, 98, 99, 100, 101, 102, 59, 103, 104, 59, 105, 106, 59, 0] [.nullify] (.write twoNames) buf
  refine ⟨by decide, hread, ?_⟩
  have hnames := congrArg₂ (fun e e' => [e, e']) (hfiles.name 0 _ rfl) (hfiles.name 1 _ rfl)
  have hbehind := congrArg₂ (fun e e' => [e, e']) (hfiles.null (by decide))
    (hfiles.unset 3 (Or.inr (by decide)))
  exact congrArg₂ (· ++ ·) hnames hbehind

end JitDt.Lockfile
