import JitDt.Regexplib.Layout

/-!
# Escaped quotes

A backslash hides the character behind it from the test for a backslash only: the loop of
`gettoken` over a string ends at a double quote whether it was escaped or not.
-/

namespace JitDt.Regexplib

set_option autoImplicit false

/-- What may stand between two double quotes. -/
structure Quotable where
  bytes : List UInt8
  printable : ∀ c ∈ bytes, isprint c
  short : bytes.length ≤ 126

/-- A backslash before every backslash and every double quote. -/
def escapeQuotes (s : List UInt8) : List UInt8 :=
  s.flatMap fun c => if c = '\\'.toUInt8 ∨ c = '"'.toUInt8 then ['\\'.toUInt8, c] else [c]

def Quotable.written (s : Quotable) (rest : List UInt8) : List UInt8 :=
  '"'.toUInt8 :: (escapeQuotes s.bytes ++ '"'.toUInt8 :: rest)

theorem escapeQuotes_append (s t : List UInt8) :
    escapeQuotes (s ++ t) = escapeQuotes s ++ escapeQuotes t := List.flatMap_append

theorem escapeQuotes_of_unquoted {s : List UInt8} (h : '"'.toUInt8 ∉ s) :
    escapeQuotes s = escape s := by
  induction s with
  | nil => rfl
  | cons c s ih =>
    rw [List.mem_cons, not_or] at h
    have hne : c ≠ '"'.toUInt8 := fun heq => h.1 heq.symm
    have hrest := ih h.2
    unfold escapeQuotes escape at hrest ⊢
    rw [List.flatMap_cons, List.flatMap_cons, hrest]
    by_cases hb : c = '\\'.toUInt8
    · rw [if_pos (Or.inl hb), if_pos hb, hb]
    · rw [if_neg (by simp [hb, hne]), if_neg hb]

section Reading
variable {signed : Bool} (line : Nat) (rest buf : List UInt8)

theorem gettoken_quoted (t : Text) {e r : List UInt8} (hend : getChar e = ('"'.toUInt8, r)) :
    gettoken signed ⟨'"'.toUInt8 :: (escape t.bytes ++ e), line, buf⟩ =
      some (.str, ⟨r, line, t.bytes⟩) :=
  @gettokenBody_quoted signed (gettokenFrom signed (escape t.bytes ++ e).length) t e r hend line buf

/-- The string is read as far as its first double quote, and the rest of it stays in the file. -/
theorem gettoken_cut {s : Quotable} {t u : List UInt8} (hs : s.bytes = t ++ '"'.toUInt8 :: u)
    (ht : '"'.toUInt8 ∉ t) :
    gettoken signed ⟨s.written rest, line, buf⟩ =
      some (.str, ⟨escapeQuotes u ++ '"'.toUInt8 :: rest, line, t⟩) := by
  have hshort : t.length ≤ 126 := by
    have hlen := s.short
    rw [hs, List.length_append] at hlen
    omega
  have hprint : ∀ c ∈ t, isprint c := by
    intro c hc
    apply s.printable
    rw [hs]
    exact List.mem_append_left _ hc
  have hwritten : s.written rest = '"'.toUInt8 ::
      (escape t ++ '\\'.toUInt8 :: '"'.toUInt8 :: (escapeQuotes u ++ '"'.toUInt8 :: rest)) := by
    rw [Quotable.written, hs, escapeQuotes_append, escapeQuotes_of_unquoted ht, List.append_assoc]
    rfl
  rw [hwritten]
  exact gettoken_quoted line buf ⟨t, hprint, ht, hshort⟩ rfl

end Reading

/-- A string is read back exactly if there is no double quote in it. -/
theorem gettoken_written_iff (signed : Bool) (s : Quotable) (line : Nat) (rest buf : List UInt8) :
    gettoken signed ⟨s.written rest, line, buf⟩ = some (.str, ⟨rest, line, s.bytes⟩) ↔
      '"'.toUInt8 ∉ s.bytes := by
  constructor
  · intro hread hmem
    obtain ⟨t, u, hs, ht⟩ := List.eq_append_cons_of_mem hmem
    rw [gettoken_cut line rest buf hs ht] at hread
    have hstr : t = s.bytes := congrArg (fun x => x.2.str) (Option.some.inj hread)
    rw [← hstr] at hmem
    exact ht hmem
  · intro hquote
    have hwritten : s.written rest =
        '"'.toUInt8 :: (escape s.bytes ++ '"'.toUInt8 :: rest) := by
      rw [Quotable.written, escapeQuotes_of_unquoted hquote]
    rw [hwritten]
    exact gettoken_quoted line buf ⟨s.bytes, s.printable, hquote, s.short⟩ rfl

/-- `"a\"b"` is read as `a`. -/
theorem gettoken_written_fails :
    let s : Quotable := ⟨[97, 34, 98], List.all_eq_true.mp rfl, by decide⟩
    (gettoken true ⟨s.written [], 1, []⟩).map (fun x => x.2.str) = some [97] ∧
      gettoken true ⟨s.written [], 1, []⟩ ≠ some (.str, ⟨[], 1, s.bytes⟩) := by
  intro s
  refine ⟨by decide, fun hread => ?_⟩
  have hstr := congrArg (Option.map fun x => x.2.str) hread
  exact absurd hstr (by decide)

end JitDt.Regexplib
