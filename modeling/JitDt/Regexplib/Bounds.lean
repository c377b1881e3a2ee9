import JitDt.Regexplib.Getc
import JitDt.Regexplib.Match

/-!
# The buffer and the tables have room

The loops of `gettoken` store a character before they look at the index, and the counts of the
tables are tested in different places. No index is too large, whatever the file contains.
-/

namespace JitDt.Regexplib

set_option autoImplicit false

open StateTransition (Reaches)
open Halting

namespace Event

def InBounds : Event → Prop
  | .buf i => i < strLen
  | .str s => s.length ≤ strLen - 1
  | .conf i => i < maxConf
  | .synctype i => i < maxSyncfiles

end Event

/-- What is in the buffer where the next `getc` stands; a number is no string. -/
def Ctl.Fits : Ctl → Prop
  | .word b => b.length ≤ strLen
  | .num tktype b => b.length ≤ strLen ∧ ∀ val, tktype val ≠ .str
  | .text b => b.length < strLen
  | .escaped b => b.length < strLen
  | _ => True

/-- The tables have room at this place. -/
structure Stand.HasRoom (x : Stand) : Prop where
  conf : Room x.pos x.tables
  sent_le : x.tables.sent ≤ maxSyncfiles

structure Config.Good (c : Config) : Prop where
  fits : c.ctl.Fits
  room : c.HasRoom

/-- What a step stores is in bounds, and what it leads to is good again. -/
structure Step.Safe (s : Step) : Prop where
  events : ∀ e ∈ s.1, e.InBounds
  next : ∀ c, s.2 = some c → c.Good

/-! ## The tables -/

theorem take_sent_le {t t' : Tables} {buf : List UInt8} {pos pos' : Pos} {tkn : Token}
    (h : t.sent ≤ maxSyncfiles) (htake : take t buf pos tkn = some (pos', t')) :
    t'.sent ≤ maxSyncfiles := by
  cases take_cases htake with
  | typeValue hpair hroom => exact Nat.lt_of_not_le hroom
  | _ => exact h

theorem stores_inBounds {x : Stand} (h : x.HasRoom) {buf : List UInt8} {tkn : Token} {pos : Pos}
    {t : Tables} (htake : take x.tables buf x.pos tkn = some (pos, t)) :
    ∀ e ∈ x.stores, e.InBounds := by
  obtain ⟨⟨scan, tables⟩, from'⟩ := x
  intro e he
  cases take_cases htake with
  | brace =>
    rw [List.mem_singleton.mp he]
    exact h.conf.cent_lt trivial
  | value =>
    rw [List.mem_singleton.mp he]
    exact h.conf.cent_lt rfl
  | typeValue hpair hroom =>
    rw [List.mem_singleton.mp he]
    exact Nat.lt_of_not_le hroom
  | _ => cases he

/-! ## The steps -/

section Steps
variable {x : Stand} {es : List Event} {b : List UInt8} {ch : UInt8}

theorem Stand.HasRoom.seek (h : x.HasRoom) (s : List UInt8) (line : Nat) :
    (x.seek s line).HasRoom := ⟨h.conf, h.sent_le⟩

theorem goto_safe (h : x.HasRoom) {ctl : Ctl} (hctl : ctl.Fits) (hes : ∀ e ∈ es, e.InBounds) :
    Step.Safe (x.goto ctl es) := by
  refine ⟨hes, ?_⟩
  intro c hc
  obtain rfl := Option.some.inj hc
  exact ⟨hctl, h⟩

theorem after_good (h : x.HasRoom) (tkn : Token) : (x.after tkn).Good := by
  unfold Stand.after
  split
  · rename_i y htake
    exact ⟨trivial, h.conf.take htake, take_sent_le h.sent_le htake⟩
  · refine ⟨?_, h⟩
    unfold Stand.verdict
    split
    · split <;> trivial
    · trivial

theorem finish_safe (h : x.HasRoom) (hes : ∀ e ∈ es, e.InBounds) {r : Token × Scan}
    (hstr : r.1 = .str → r.2.str.length ≤ strLen - 1) : Step.Safe (x.finish es r) := by
  constructor
  · intro e he
    rcases List.mem_append.mp he with he | he
    · rcases List.mem_append.mp he with he | he
      · exact hes e he
      · split at he
        · rw [List.mem_singleton.mp he]
          exact hstr ‹_›
        · cases he
    · split at he
      · rename_i hsome
        obtain ⟨y, htake⟩ := Option.isSome_iff_exists.mp hsome
        exact stores_inBounds h htake e he
      · cases he
  · intro c hc
    obtain rfl := Option.some.inj hc
    exact @after_good { x with scan := r.2 } ⟨h.conf, h.sent_le⟩ r.1

theorem event_nil : ∀ e ∈ ([] : List Event), e.InBounds := by
  intro e he
  cases he

theorem event_singleton {e : Event} (h : e.InBounds) : ∀ e' ∈ [e], e'.InBounds := by
  intro e' he'
  rw [List.mem_singleton.mp he']
  exact h

theorem terminator_inBounds (hlen : b.length ≤ strLen) {i : Nat} (hi : i ≤ b.length) :
    ∀ e ∈ terminator b i, e.InBounds := by
  intro e he
  unfold terminator at he
  split at he
  · cases he
  · rw [List.mem_singleton.mp he]
    exact hi.trans_lt (lt_of_le_of_ne hlen ‹_›)

theorem length_concat_le (h : b.length < strLen) : (b ++ [ch]).length ≤ strLen := by
  rw [List.length_append, List.length_singleton]
  exact h

theorem one_le_strLen : 1 ≤ strLen := by decide

theorem int_ne_str (val : Int32) : Token.int val ≠ .str := nofun

theorem pos_ne_str (val : Int32) : Token.pos val ≠ .str := nofun

theorem dispatch_safe (h : x.HasRoom) : Step.Safe (x.dispatch ch) := by
  have hzero : ∀ e ∈ [Event.buf 0], e.InBounds := event_singleton one_le_strLen
  unfold Stand.dispatch
  split_ifs
  · exact goto_safe h one_le_strLen hzero
  · exact goto_safe h ⟨one_le_strLen, int_ne_str⟩ hzero
  · exact goto_safe h trivial event_nil
  · exact goto_safe h trivial event_nil
  · exact goto_safe h one_le_strLen event_nil
  all_goals exact @finish_safe x [] h event_nil _ nofun

theorem wordEnd_str (hlen : b.length ≤ strLen) {s : Scan} (h : (wordEnd b s).1 = .str) :
    (wordEnd b s).2.str.length ≤ strLen - 1 := by
  unfold wordEnd at h ⊢
  by_cases hlong : b.length = strLen
  · rw [if_pos hlong] at h
    cases h
  · rw [if_neg hlong] at h ⊢
    split at h
    · cases h
    · exact Nat.le_sub_one_of_lt (lt_of_le_of_ne hlen hlong)

theorem numEnd_ne_str {signed : Bool} {f : Int32 → Token} (hf : ∀ v, f v ≠ .str) (s : Scan) :
    (numEnd signed f b ch s).1 ≠ .str := by
  unfold numEnd
  split
  · nofun
  · exact hf _

theorem textEnd_str (hlen : b.length ≤ strLen) {s : Scan} (h : (textEnd b s).1 = .str) :
    (textEnd b s).2.str.length ≤ strLen - 1 := by
  unfold textEnd at h ⊢
  by_cases hlong : b.length = strLen
  · rw [if_pos hlong] at h
    cases h
  · rw [if_neg hlong, List.length_dropLast]
    omega

/-- The character is stored before the length is looked at. -/
theorem store_safe (h : x.HasRoom) (hlen : b.length < strLen) : Step.Safe (x.store b ch) := by
  have hle : (b ++ [ch]).length ≤ strLen := length_concat_le hlen
  unfold Stand.store
  split
  · rename_i hgo
    exact goto_safe h hgo.1 (event_singleton hlen)
  · apply finish_safe h
    · intro e he
      rcases List.mem_cons.mp he with rfl | he
      · exact hlen
      · exact terminator_inBounds hle (Nat.sub_le _ _) e he
    · exact textEnd_str hle

theorem stopped_safe : Step.Safe ([], none) := by
  refine ⟨event_nil, ?_⟩
  intro c hc
  cases hc

theorem turn_safe {signed : Bool} (h : x.HasRoom) {ctl : Ctl} (hctl : ctl.Fits) :
    Step.Safe (turn signed x ch ctl) := by
  cases ctl with
  | blank =>
    rw [turn]
    split
    · exact goto_safe (h.seek _ _) trivial event_nil
    · split
      · exact goto_safe h trivial event_nil
      · exact dispatch_safe h
  | comment =>
    rw [turn]
    split
    · exact goto_safe (h.seek _ _) trivial event_nil
    · exact goto_safe h trivial event_nil
  | word b =>
    have hlen : b.length ≤ strLen := hctl
    rw [turn]
    split
    · rename_i hgo
      exact goto_safe h (length_concat_le hgo.1) (event_singleton hgo.1)
    · exact finish_safe h (terminator_inBounds hlen le_rfl) (wordEnd_str hlen)
  | dollar => exact goto_safe h ⟨one_le_strLen, pos_ne_str⟩ (event_singleton one_le_strLen)
  | num tktype b =>
    obtain ⟨hlen, htype⟩ := hctl
    rw [turn]
    split
    · rename_i hgo
      exact goto_safe h ⟨length_concat_le hgo.1, htype⟩ (event_singleton hgo.1)
    · exact finish_safe h (terminator_inBounds hlen le_rfl) fun hstr =>
        absurd hstr (numEnd_ne_str htype _)
  | text b =>
    rw [turn]
    split
    · exact goto_safe h hctl event_nil
    · exact store_safe h hctl
  | escaped b => exact store_safe h hctl
  | returned => exact stopped_safe
  | exited => exact stopped_safe

theorem step_safe {signed : Bool} {c : Config} (h : c.Good) : Step.Safe (step signed c) :=
  turn_safe (h.room.seek _ _) h.fits

end Steps

/-! ## Whole runs -/

theorem opened_good (content buf : List UInt8) : (opened content buf).Good :=
  ⟨trivial, ⟨Nat.zero_le _, nofun, fun _ _ => rfl⟩, Nat.zero_le _⟩

theorem good_of_reaches {signed : Bool} {content buf : List UInt8} {c : Config}
    (h : Reaches (move signed) (opened content buf) c) : c.Good :=
  reaches_invariant (fun hgood hmove => (step_safe hgood).next _ hmove) (opened_good content buf) h

/-- Everything that is stored while the file is read is in bounds, and so are the counts at
the end. Of a write to a table this is the row: the length of what `strcpy` copies into it out of
a buffer that was not written for this token is not covered. -/
structure NoOverflow (signed : Bool) (content buf : List UInt8) : Prop where
  events : ∀ c, Reaches (move signed) (opened content buf) c →
    ∀ e ∈ (step signed c).1, e.InBounds
  counts : ∀ t, readconf signed (some content) buf = pure t →
    t.cent ≤ maxConf ∧ t.sent ≤ maxSyncfiles

theorem readconf_noOverflow (signed : Bool) (content buf : List UInt8) :
    NoOverflow signed content buf := by
  constructor
  · intro c hreach
    exact (step_safe (good_of_reaches hreach)).events
  · intro t ht
    have houtcome := readconf_outcome signed content buf
    rw [ht] at houtcome
    generalize hr : (pure t : Run Tables) = r at houtcome
    cases houtcome with
    | @returns x hreach =>
      cases hr
      have hgood := good_of_reaches hreach
      exact ⟨hgood.room.conf.cent_le, hgood.room.sent_le⟩
    | exits => cases hr
    | hangs => cases hr

end JitDt.Regexplib
