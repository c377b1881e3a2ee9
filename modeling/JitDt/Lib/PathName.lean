import Mathlib

/-!
# Path names

A path name is a byte string whose parts stand between slashes. Empty parts and dots name
nothing, so two spellings with the same `parts` lead to the same directory.
-/

namespace JitDt.PathName

set_option autoImplicit false

def slash : UInt8 := 47

def dot : UInt8 := 46

/-- The part names a directory entry. -/
def isName (c : List UInt8) : Bool := c ≠ [] && c ≠ [dot]

def parts (p : List UInt8) : List (List UInt8) := (p.splitOn slash).filter isName

def EndsSlash (p : List UInt8) : Prop := ∃ q, p = q ++ [slash]

/-- The text before the first slash, and the text behind it. -/
def index : List UInt8 → Option (List UInt8 × List UInt8)
  | [] => none
  | c :: p => if c = slash then some ([], p) else (index p).map fun x => (c :: x.1, x.2)

variable {p q a b : List UInt8}

theorem parts_nil : parts [] = [] := rfl

theorem parts_append_slash (p q : List UInt8) : parts (p ++ slash :: q) = parts p ++ parts q := by
  unfold parts
  rw [List.splitOn_append_cons_self, List.filter_append]

theorem parts_concat_slash (p : List UInt8) : parts (p ++ [slash]) = parts p := by
  rw [parts_append_slash, parts_nil, List.append_nil]

theorem EndsSlash.parts_append (h : EndsSlash p) (q : List UInt8) :
    parts (p ++ q) = parts p ++ parts q := by
  obtain ⟨r, rfl⟩ := h
  rw [List.append_assoc, List.singleton_append, parts_append_slash, parts_concat_slash]

theorem parts_of_not_mem (h : slash ∉ p) : parts p = if isName p then [p] else [] := by
  unfold parts
  rw [List.splitOn_eq_singleton h]
  by_cases hp : isName p <;> simp [hp]

theorem parts_cases (h : slash ∉ p) : parts p = [] ∨ parts p = [p] := by
  rw [parts_of_not_mem h]
  split
  · exact .inr rfl
  · exact .inl rfl

theorem endsSlash_concat (p : List UInt8) : EndsSlash (p ++ [slash]) := ⟨p, rfl⟩

theorem endsSlash_iff : EndsSlash p ↔ p.getLast? = some slash := by
  constructor
  · rintro ⟨q, rfl⟩
    exact List.getLast?_concat
  · intro h
    obtain ⟨q, rfl⟩ := List.getLast?_eq_some_iff.mp h
    exact ⟨q, rfl⟩

instance (p : List UInt8) : Decidable (EndsSlash p) := decidable_of_iff _ endsSlash_iff.symm

theorem index_eq_some (h : index p = some (a, b)) : p = a ++ slash :: b ∧ slash ∉ a := by
  induction p generalizing a with
  | nil => cases h
  | cons c p ih =>
    by_cases hc : c = slash
    · rw [index, if_pos hc] at h
      cases h
      exact ⟨by rw [hc]; rfl, List.not_mem_nil⟩
    · rw [index, if_neg hc] at h
      obtain ⟨⟨a', b'⟩, hrest, heq⟩ := Option.map_eq_some_iff.mp h
      cases heq
      obtain ⟨rfl, ha⟩ := ih hrest
      refine ⟨rfl, ?_⟩
      rw [List.mem_cons, not_or]
      exact ⟨fun h => hc h.symm, ha⟩

theorem index_eq_none (h : index p = none) : slash ∉ p := by
  induction p with
  | nil => exact List.not_mem_nil
  | cons c p ih =>
    by_cases hc : c = slash
    · rw [index, if_pos hc] at h
      cases h
    · rw [index, if_neg hc] at h
      rw [List.mem_cons, not_or]
      exact ⟨fun h => hc h.symm, ih (Option.map_eq_none_iff.mp h)⟩

/-- Behind the first slash the name ends or ends in a slash again. -/
theorem EndsSlash.index (h : EndsSlash p) :
    ∃ a b, index p = some (a, b) ∧ (b = [] ∨ EndsSlash b) := by
  obtain ⟨q, rfl⟩ := h
  cases hi : PathName.index (q ++ [slash]) with
  | none => exact absurd (index_eq_none hi) (by simp)
  | some x =>
    obtain ⟨a, b⟩ := x
    obtain ⟨heq, ha⟩ := index_eq_some hi
    refine ⟨a, b, rfl, ?_⟩
    rcases List.eq_nil_or_concat b with rfl | ⟨b', c, rfl⟩
    · exact .inl rfl
    · right
      rw [List.concat_eq_append] at heq ⊢
      have hlast := congrArg List.getLast? heq
      rw [List.getLast?_concat, ← List.cons_append, ← List.append_assoc,
        List.getLast?_concat] at hlast
      obtain rfl := Option.some.inj hlast
      exact endsSlash_concat b'

/-- The text before the last slash, and the text behind it. -/
def rindex (p : List UInt8) : Option (List UInt8 × List UInt8) :=
  (index p.reverse).map fun x => (x.2.reverse, x.1.reverse)

theorem rindex_eq_some (h : rindex p = some (a, b)) : p = a ++ slash :: b ∧ slash ∉ b := by
  obtain ⟨⟨b', a'⟩, hidx, heq⟩ := Option.map_eq_some_iff.mp h
  cases heq
  obtain ⟨hrev, hb⟩ := index_eq_some hidx
  constructor
  · rw [← List.reverse_reverse p, hrev]
    simp
  · rw [List.mem_reverse]
    exact hb

theorem rindex_eq_none (h : rindex p = none) : slash ∉ p := by
  have hrev := index_eq_none (Option.map_eq_none_iff.mp h)
  rwa [List.mem_reverse] at hrev

/-- The directory in a path name, up to its last slash. -/
def dirPart (p : List UInt8) : List UInt8 := (rindex p).elim [] fun x => x.1 ++ [slash]

/-- The text behind the last slash. -/
def basePart (p : List UInt8) : List UInt8 := (rindex p).elim p Prod.snd

theorem dirPart_append_basePart (p : List UInt8) : dirPart p ++ basePart p = p := by
  unfold dirPart basePart
  cases h : rindex p with
  | none => rfl
  | some x =>
    rw [Option.elim_some, Option.elim_some, List.append_assoc]
    exact (rindex_eq_some h).1.symm

theorem slash_not_mem_basePart (p : List UInt8) : slash ∉ basePart p := by
  unfold basePart
  cases h : rindex p with
  | none => exact rindex_eq_none h
  | some x => exact (rindex_eq_some h).2

theorem dirPart_cases (p : List UInt8) : dirPart p = [] ∨ EndsSlash (dirPart p) := by
  unfold dirPart
  cases rindex p with
  | none => exact Or.inl rfl
  | some x => exact Or.inr (endsSlash_concat x.1)

/-- What is appended to a path name lengthens its last part. -/
theorem parts_append (p q : List UInt8) :
    parts (p ++ q) = parts (dirPart p) ++ parts (basePart p ++ q) := by
  have hsplit : p ++ q = dirPart p ++ (basePart p ++ q) := by
    rw [← List.append_assoc, dirPart_append_basePart]
  rw [hsplit]
  rcases dirPart_cases p with hdir | hdir
  · rw [hdir, parts_nil]
    rfl
  · exact hdir.parts_append _

theorem parts_eq (p : List UInt8) : parts p = parts (dirPart p) ++ parts (basePart p) := by
  have h := parts_append p []
  rwa [List.append_nil, List.append_nil] at h

theorem basePart_eq_nil (h : EndsSlash p) : basePart p = [] := by
  obtain ⟨q, rfl⟩ := h
  have hsplit := dirPart_append_basePart (q ++ [slash])
  rcases List.eq_nil_or_concat (basePart (q ++ [slash])) with hnil | ⟨b, c, hb⟩
  · exact hnil
  · have hmem := slash_not_mem_basePart (q ++ [slash])
    rw [hb, List.concat_eq_append] at hsplit hmem
    have hlast := congrArg List.getLast? hsplit
    rw [← List.append_assoc, List.getLast?_concat, List.getLast?_concat] at hlast
    obtain rfl := Option.some.inj hlast
    exact absurd (List.mem_append_right b (List.mem_singleton_self slash)) hmem

theorem basePart_ne_nil (hp : p ≠ []) (h : ¬ EndsSlash p) : basePart p ≠ [] := by
  intro hnil
  have hall := dirPart_append_basePart p
  rw [hnil, List.append_nil] at hall
  rcases dirPart_cases p with hdir | hdir
  · exact hp (hall.symm.trans hdir)
  · exact h (hall ▸ hdir)

/-- A dot behind a path name is a part of its own only behind a slash. -/
theorem parts_append_dot_iff (hp : p ≠ []) : parts (p ++ [dot]) = parts p ↔ EndsSlash p := by
  constructor
  · intro hparts
    by_contra hslash
    have hbase := basePart_ne_nil hp hslash
    have hmem : slash ∉ basePart p ++ [dot] := by
      rw [List.mem_append, not_or]
      exact ⟨slash_not_mem_basePart p, by decide⟩
    have hname : isName (basePart p ++ [dot]) = true := by
      cases hb : basePart p with
      | nil => exact absurd hb hbase
      | cons c b => simp [isName]
    rw [parts_append, parts_eq p, List.append_right_inj, parts_of_not_mem hmem, if_pos hname] at hparts
    rcases parts_cases (slash_not_mem_basePart p) with hnone | hone
    · rw [hnone] at hparts
      cases hparts
    · rw [hone] at hparts
      have hlen := congrArg List.length (List.cons.inj hparts).1
      rw [List.length_append, List.length_singleton] at hlen
      omega
  · intro hslash
    rw [hslash.parts_append]
    exact List.append_nil _

/-- Two path names that start at the same place and have the same parts. -/
def SameFile (p q : List UInt8) : Prop :=
  (p.head? = some slash ↔ q.head? = some slash) ∧ parts p = parts q

theorem SameFile.refl (p : List UInt8) : SameFile p p := ⟨Iff.rfl, rfl⟩

/-- Every part takes a byte and a slash. -/
theorem two_mul_length_parts (p : List UInt8) : 2 * (parts p).length ≤ p.length + 1 := by
  induction hn : p.length using Nat.strong_induction_on generalizing p with
  | _ n ih =>
    cases hi : index p with
    | none =>
      rw [parts_of_not_mem (index_eq_none hi)]
      split
      · rename_i hname
        cases p with
        | nil => cases hname
        | cons c p =>
          rw [← hn]
          simp
      · simp
    | some x =>
      obtain ⟨a, b⟩ := x
      obtain ⟨rfl, ha⟩ := index_eq_some hi
      rw [List.length_append, List.length_cons] at hn
      have hb := ih b.length (by omega) b rfl
      rw [parts_append_slash, parts_of_not_mem ha, List.length_append]
      split
      · rename_i hname
        cases a with
        | nil => cases hname
        | cons c a =>
          rw [List.length_cons] at hn
          rw [List.length_singleton]
          omega
      · rw [List.length_nil]
        omega

/-! ## Where a name leads -/

/-- One step from a place: `..` leads up again, but not from the root. -/
def walk (q : List (List UInt8)) (c : List UInt8) : List (List UInt8) :=
  if c = [dot, dot] ∧ q ≠ [] ∧ q.getLast? ≠ some [dot, dot] then
    if q = [[slash]] then q else q.dropLast
  else q ++ [c]

/-- The place that a name leads to; the first part of an absolute one is a slash. The empty name
leads nowhere. -/
def leads (p : List UInt8) : Option (List (List UInt8)) :=
  p.head?.map fun c => (parts p).foldl walk (if c = slash then [[slash]] else [])

/-- The name of an entry other than `.` and `..`. -/
def IsEntry (c : List UInt8) : Prop := slash ∉ c ∧ isName c ∧ c ≠ [dot, dot]

instance (c : List UInt8) : Decidable (IsEntry c) := inferInstanceAs (Decidable (_ ∧ _))

theorem leads_append_slash {q : List (List UInt8)} (h : leads p = some q) (r : List UInt8) :
    leads (p ++ slash :: r) = some ((parts r).foldl walk q) := by
  cases p with
  | nil => cases h
  | cons c p =>
    obtain rfl := Option.some.inj h
    change some ((parts (c :: p ++ slash :: r)).foldl walk _) = _
    rw [parts_append_slash, List.foldl_append]

theorem leads_concat_slash {q : List (List UInt8)} (h : leads p = some q) :
    leads (p ++ [slash]) = some q := leads_append_slash h []

theorem leads_entry {q : List (List UInt8)} (h : leads p = some q) (ha : IsEntry a) :
    leads (p ++ slash :: a) = some (q ++ [a]) := by
  rw [leads_append_slash h, parts_of_not_mem ha.1, if_pos ha.2.1, List.foldl_cons, List.foldl_nil,
    walk, if_neg fun hup => ha.2.2 hup.1]

end JitDt.PathName
