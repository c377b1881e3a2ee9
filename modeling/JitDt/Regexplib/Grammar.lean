import JitDt.Lib.Machine
import JitDt.Regexplib.RoundTrip

/-!
# The grammar of the configuration file

The words of a file are the tokens that `gettoken` reads, a string token together with its
text; semicolons, comments and white space are gone then. A file is written in the grammar if its
words are those of a list of regions and `sync` blocks and nothing but blanks follows. In a
grammar rule a `<name>`, a `<regular expression>` and a `<format>` are string tokens.
-/

namespace JitDt.Regexplib

set_option autoImplicit false

open Kwatcher (isspace)
open Machine (exec Determined)

/-! ## Words -/

abbrev Word := Token × Option (List UInt8)

/-- A token and the buffer behind it. -/
def word (tkn : Token) (buf : List UInt8) : Word := (tkn, if tkn = .str then some buf else none)

def bare (tkn : Token) : Word := (tkn, none)

def quote (s : List UInt8) : Word := (.str, some s)

/-- The scanner as a machine that reads one word after the other. -/
def reading (signed : Bool) (s : Scan) (w : Word) : Option Scan :=
  match gettoken signed s with
  | none => none
  | some (tkn, t) => if w = word tkn t.str then some t else none

theorem reading_iff {signed : Bool} {s t : Scan} {w : Word} :
    reading signed s w = some t ↔ ∃ tkn, gettoken signed s = some (tkn, t) ∧ w = word tkn t.str := by
  unfold reading
  cases h : gettoken signed s with
  | none => simp
  | some x =>
    obtain ⟨tkn, u⟩ := x
    by_cases hw : w = word tkn u.str
    · simp only [if_pos hw, Option.some.injEq, Prod.mk.injEq]
      constructor
      · rintro rfl
        exact ⟨tkn, ⟨rfl, rfl⟩, hw⟩
      · rintro ⟨tkn', ⟨rfl, rfl⟩, _⟩
        rfl
    · simp only [if_neg hw, Option.some.injEq, Prod.mk.injEq]
      refine iff_of_false nofun ?_
      rintro ⟨tkn', ⟨rfl, rfl⟩, h⟩
      exact hw h

theorem reading_determined (signed : Bool) : Determined (reading signed) := by
  intro s v w t u hv hw
  obtain ⟨tkn, hg, rfl⟩ := reading_iff.mp hv
  obtain ⟨tkn', hg', rfl⟩ := reading_iff.mp hw
  rw [hg, Option.some.injEq, Prod.mk.injEq] at hg'
  rw [hg'.1, hg'.2]

/-! ## The grammar -/

/-- A region with its items, or a `sync` block with its types. -/
inductive Entry where
  | region (name : List UInt8) (items : List (Member × List UInt8))
  | sync (types : List (List UInt8))

def itemWords (k : Key) (s : List UInt8) : List Word := [bare (.key k), bare .equ, quote s]

def itemsWords (items : List (Member × List UInt8)) : List Word :=
  items.flatMap fun x => itemWords x.1.key x.2

def typesWords (types : List (List UInt8)) : List Word := types.flatMap (itemWords .type)

/-- Where a member is given twice the later string counts. -/
def fill (name : List UInt8) (items : List (Member × List UInt8)) : Conf :=
  items.foldl (fun x i => x.set i.2 i.1) { Conf.zero with c_area := name }

namespace Entry

def words : Entry → List Word
  | .region name items =>
    [bare (.key .region), quote name, bare .bgn] ++ itemsWords items ++ [bare .close]
  | .sync types => [bare (.key .sync), bare .bgn] ++ typesWords types ++ [bare .close]

/-- A list of items has at least one. -/
def Full : Entry → Prop
  | .region _ items => items ≠ []
  | .sync types => types ≠ []

def conf : Entry → Option Conf
  | .region name items => some (fill name items)
  | .sync _ => none

def types : Entry → List (List UInt8)
  | .region _ _ => []
  | .sync types => types

end Entry

def Tables.ofEntries (es : List Entry) : Tables where
  conf := fun i => (es.filterMap Entry.conf)[i]?.elim .zero id
  synctype := fun i => (es.flatMap Entry.types)[i]?.elim [] id
  cent := (es.filterMap Entry.conf).length
  sent := (es.flatMap Entry.types).length

/-- The character ends the comment. -/
def endsComment (signed : Bool) (c : UInt8) : Bool := c = '\n'.toUInt8 || (signed && c = eof)

/-- Nothing but white space, comments and semicolons; the last comment may be open. -/
inductive Blank (signed : Bool) : List UInt8 → Prop where
  | nil : Blank signed []
  | space {c : UInt8} {s : List UInt8} (hc : isspace c) (hs : Blank signed s) : Blank signed (c :: s)
  | delim {s : List UInt8} (hs : Blank signed s) : Blank signed (';'.toUInt8 :: s)
  | comment {text s : List UInt8} {c : UInt8} (htext : ∀ d ∈ text, endsComment signed d = false)
      (hc : endsComment signed c) (hs : Blank signed s) :
      Blank signed ('#'.toUInt8 :: (text ++ c :: s))
  | last {text : List UInt8} (htext : ∀ d ∈ text, endsComment signed d = false) :
      Blank signed ('#'.toUInt8 :: text)

/-- The file is the list of entries, and `buf` is what the buffer held before. -/
def WrittenAs (signed : Bool) (content buf : List UInt8) (es : List Entry) : Prop :=
  (∀ e ∈ es, e.Full) ∧ ∃ s, exec (reading signed) ⟨content, 1, buf⟩ (es.flatMap Entry.words) = some s ∧
    Blank signed s.input

/-! ## What `gettoken` finds behind the last word -/

section Blanks
variable {signed : Bool}

theorem skipblank_text {text : List UInt8} (h : ∀ d ∈ text, endsComment signed d = false) (line : Nat)
    (s : List UInt8) : skipblank signed true line (text ++ s) = skipblank signed true line s := by
  induction text with
  | nil => rfl
  | cons c text ih =>
    have hc := h c List.mem_cons_self
    rw [List.cons_append, skipblank, if_neg (by simpa [endsComment] using hc)]
    exact ih fun d hd => h d (List.mem_cons_of_mem _ hd)

/-- At the end of the file there is an error, or a comment that never ends. -/
theorem gettokenFrom_blank {s : List UInt8} (hs : Blank signed s) (k line : Nat) (str : List UInt8) :
    gettokenFrom signed k ⟨s, line, str⟩ = none ∨
      ∃ t, gettokenFrom signed k ⟨s, line, str⟩ = some (.errChr, t) := by
  induction hs generalizing k line with
  | nil => cases k <;> exact .inr ⟨_, rfl⟩
  | @space c s hc _ ih =>
    have hcongr : gettokenFrom signed k ⟨c :: s, line, str⟩ =
        gettokenFrom signed k ⟨s, if c = '\n'.toUInt8 then line + 1 else line, str⟩ := by
      apply gettokenFrom_congr
      · simp only [skipblank, if_pos hc]
      · rfl
    rw [hcongr]
    exact ih k _
  | @delim s _ ih =>
    cases k with
    | zero => exact .inl rfl
    | succ k =>
      rw [gettokenFrom_delim]
      exact ih k line
  | @comment text s c htext hc _ ih =>
    have hcongr : gettokenFrom signed k ⟨'#'.toUInt8 :: (text ++ c :: s), line, str⟩ =
        gettokenFrom signed k ⟨s, line + 1, str⟩ := by
      apply gettokenFrom_congr
      · simp only
        rw [skipblank, if_neg (by decide), if_pos rfl, skipblank_text htext, skipblank,
          if_pos (by simpa [endsComment] using hc)]
      · rfl
    rw [hcongr]
    exact ih k _
  | @last text htext =>
    have hskip : skipblank signed false line ('#'.toUInt8 :: text) =
        skipblank signed true line [] := by
      have happ := @skipblank_text signed text htext line []
      rw [List.append_nil] at happ
      rw [skipblank, if_neg (by decide), if_pos rfl, happ]
    cases signed with
    | false =>
      left
      have hbody : ∀ retry, gettokenBody false retry ⟨'#'.toUInt8 :: text, line, str⟩ = none := by
        intro retry
        unfold gettokenBody
        simp only [hskip]
        rfl
      cases k <;> exact hbody _
    | true =>
      right
      have hbody : ∀ retry, ∃ t, gettokenBody true retry ⟨'#'.toUInt8 :: text, line, str⟩ =
          some (.errChr, t) := by
        intro retry
        unfold gettokenBody
        simp only [hskip]
        exact ⟨_, rfl⟩
      cases k <;> exact hbody _

theorem gettoken_blank {s : Scan} (hs : Blank signed s.input) :
    gettoken signed s = none ∨ ∃ t, gettoken signed s = some (.errChr, t) :=
  gettokenFrom_blank hs s.input.length s.line s.str

end Blanks

end JitDt.Regexplib
