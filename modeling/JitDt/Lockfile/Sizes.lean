import JitDt.Lockfile.Jitget
import JitDt.Jitcclient.Scatter
import JitDt.Lwatcher.Framing

/-!
# The sizes `_jitget` of jitkclient.c reports

`bsize` holds the requested sizes when the loop starts and the received ones when it
ends. The loop replaces an entry only when it gets there: it leaves at the first entry
without a name, and the entries from there on still hold what was requested.
-/

namespace JitDt.Lockfile

set_option autoImplicit false

open Lwatcher Jitcclient

/-- The bytes entry `i` gets: those of its file, if there is a name for it and it opens. -/
def stored (k : Nat) (c : Call) (i : Nat) : List UInt8 :=
  if i < k then ((c.disk i).read (c.caller.bsize i)).getD [] else []

/-- Entry `i` reports the number of bytes its region holds. -/
def Reports (k : Nat) (c : Call) (c' : Caller) (i : Nat) : Prop :=
  (c'.bsize i).toInt = (stored k c i).length ∧
    c'.data.read (offset c.caller.bsize i) (stored k c i).length = stored k c i

/-- A call that returns 0 reports the size of every entry; `k` names were in the lock file. -/
def TrueSizes (k : Nat) (content fpath : List UInt8) (c : Call) : Prop :=
  ∃ r c', _jitget content true fpath c = some (r, c') ∧ (r = 0 → ∀ i < c.ent, Reports k c c' i)

/-- A request of at most `ftypeNum` entries of positive size, for regular files. -/
structure Request (c : Call) : Prop where
  ent : c.ent ≤ ftypeNum
  pos : ∀ i < c.ent, 0 < (c.caller.bsize i).toInt
  regular : ∀ i, c.disk i ≠ .noRead

/-- The loop in front of entry `i`: the regions before it are filled and reported. -/
structure Filled (k : Nat) (c : Call) (i : Nat) (g : Filling) : Prop where
  ptr : g.ptr = offset c.caller.bsize i
  ptr_lt : offset c.caller.bsize i < 2 ^ 31
  rest : ∀ j, i ≤ j → g.caller.bsize j = c.caller.bsize j
  done : ∀ j < i, Reports k c g.caller j

theorem stored_length_le {k : Nat} {c : Call} {i : Nat} (hpos : 0 < (c.caller.bsize i).toInt) :
    ((stored k c i).length : Int) ≤ (c.caller.bsize i).toInt := by
  unfold stored
  split
  · cases hr : (c.disk i).read (c.caller.bsize i) with
    | none =>
      simp only [Option.getD_none, List.length_nil]
      omega
    | some bytes =>
      have := (read_length_le hr).2
      simp only [Option.getD_some]
      omega
  · simp only [List.length_nil]
    omega

theorem readSize_toInt {k : Nat} {c : Call} {i : Nat} (hi : i < k)
    (hpos : 0 < (c.caller.bsize i).toInt) (hreg : c.disk i ≠ .noRead) :
    (readSize (c.disk i) (c.caller.bsize i)).toInt = (stored k c i).length := by
  have hle := stored_length_le (k := k) hpos
  have hlt := (c.caller.bsize i).toInt_lt
  rw [stored, if_pos hi] at *
  cases hd : c.disk i with
  | noOpen => rfl
  | noRead => exact absurd hd hreg
  | content bytes =>
    have hneg : ¬ c.caller.bsize i < 0 := by
      rw [Int32.lt_iff_toInt_lt]
      have : (0 : Int32).toInt = 0 := rfl
      omega
    have hread : (FileRead.content bytes).read (c.caller.bsize i) =
        some (bytes.take (c.caller.bsize i).toInt.toNat) := if_neg hneg
    rw [hd, hread, Option.getD_some] at hle
    simp only [readSize, hread, Option.getD_some]
    exact Int32.toInt_ofNat_of_lt (by omega)

theorem filled_start (k : Nat) (c : Call) : Filled k c 0 (.start c.caller) where
  ptr := rfl
  ptr_lt := by
    rw [offset_zero]
    decide
  rest := fun _ _ => rfl
  done := by
    intro j hj
    omega

/-- One entry with a name. -/
theorem Filled.getFile {k : Nat} {c : Call} {i : Nat} {g : Filling} (hc : Request c)
    (h : Filled k c i g) (hk : i < k) (hi : i < c.ent) (name : List UInt8) :
    if offset c.caller.bsize (i + 1) < 2 ^ 31 then
      ∃ g', Lockfile.getFile name (c.disk i) i g = some g' ∧ Filled k c (i + 1) g'
    else Lockfile.getFile name (c.disk i) i g = none := by
  have hpos := hc.pos i hi
  have hsucc := offset_succ c.caller.bsize i
  have hnonneg : 0 ≤ offset c.caller.bsize i := offset_nonneg hc.pos hi.le
  have hsize := h.rest i (le_refl i)
  have hstored : ((c.disk i).read (c.caller.bsize i)).getD [] = stored k c i := (if_pos hk).symm
  split
  · rename_i hlt
    have hin : g.ptr + (g.caller.bsize i).toInt < 2 ^ 31 ∧
        -2 ^ 31 ≤ g.ptr + (g.caller.bsize i).toInt := by
      rw [h.ptr, hsize]
      omega
    refine ⟨_, if_pos hin, ?_⟩
    constructor
    · change g.ptr + (g.caller.bsize i).toInt = _
      rw [h.ptr, hsize, hsucc]
    · exact hlt
    · intro j hj
      change Function.update g.caller.bsize i _ j = _
      rw [Function.update_of_ne (by omega)]
      exact h.rest j (by omega)
    · intro j hj
      have hlen : ((stored k c j).length : Int) ≤ (c.caller.bsize j).toInt :=
        stored_length_le (hc.pos j (by omega))
      unfold Reports
      simp only [hsize, h.ptr, hstored]
      by_cases hji : j = i
      · subst hji
        rw [Function.update_self]
        exact ⟨readSize_toInt hk hpos (hc.regular j), Memory.read_write _ _ _⟩
      · have hdone := h.done j (by omega)
        -- region `j` ends where the next one starts, which is not behind region `i`
        have hend : offset c.caller.bsize (j + 1) ≤ offset c.caller.bsize i :=
          offset_le hc.pos (by omega) hi.le
        rw [offset_succ] at hend
        rw [Function.update_of_ne hji, Memory.read_write_disjoint (Or.inl (by omega))]
        exact hdone
  · rename_i hge
    apply if_neg
    simp only [h.ptr, hsize]
    omega

/-- Entries that all have a name. -/
theorem Filled.getFrom {files : List (List UInt8)} {c : Call} (hc : Request c) {n i : Nat}
    {g : Filling} (h : Filled files.length c i g) (hk : i + n ≤ files.length)
    (hn : i + n ≤ c.ent) :
    if offset c.caller.bsize (i + n) < 2 ^ 31 then
      ∃ g', Lockfile.getFrom files c.disk n i g = some g' ∧ Filled files.length c (i + n) g'
    else Lockfile.getFrom files c.disk n i g = none := by
  induction n generalizing i g with
  | zero =>
    rw [Nat.add_zero, if_pos h.ptr_lt]
    exact ⟨g, rfl, h⟩
  | succ n ih =>
    have hname : files[i]? = some files[i] := List.getElem?_eq_getElem (by omega)
    have hstep := h.getFile hc (by omega) (by omega) files[i]
    have hmono : offset c.caller.bsize (i + 1) ≤ offset c.caller.bsize (i + (n + 1)) :=
      offset_le hc.pos (by omega) hn
    simp only [Lockfile.getFrom, hname]
    by_cases hlt : offset c.caller.bsize (i + 1) < 2 ^ 31
    · rw [if_pos hlt] at hstep
      obtain ⟨g', hg', hfilled⟩ := hstep
      have hrest := ih hfilled (by omega) (by omega)
      rw [show i + 1 + n = i + (n + 1) by omega] at hrest
      rw [hg']
      exact hrest
    · rw [if_neg hlt] at hstep
      rw [hstep, if_neg (by omega)]
      rfl

/-- The loop leaves at the first entry without a name. -/
theorem getFrom_break {files : List (List UInt8)} (disk : Nat → FileRead) {a b i : Nat} (g : Filling)
    (hi : i + a = files.length) (hb : i + a < ftypeNum) :
    getFrom files disk (a + b) i g = getFrom files disk a i g := by
  induction a generalizing i g with
  | zero =>
    have hnone : files[i]? = none := List.getElem?_eq_none (by omega)
    cases b with
    | zero => rfl
    | succ b =>
      simp only [getFrom, hnone]
      exact if_pos (by omega)
  | succ a ih =>
    have hname : files[i]? = some files[i] := List.getElem?_eq_getElem (by omega)
    rw [show a + 1 + b = a + b + 1 by omega]
    simp only [getFrom, hname]
    congr 1
    funext g'
    exact ih g' (by omega) (by omega)

/-- The sizes are true exactly for a request that every name covers. -/
theorem trueSizes_of_names {content fpath : List UInt8} {files : List (List UInt8)} {c : Call}
    (hread : (readNames content true fpath).2 = some files) (hc : Request c) :
    TrueSizes files.length content fpath c ↔
      c.ent ≤ files.length ∧ offset c.caller.bsize c.ent < 2 ^ 31 := by
  have hcall : _jitget content true fpath c =
      (getFrom files c.disk c.ent 0 (.start c.caller)).map fun g => (0, g.finish) := by
    unfold _jitget
    rw [hread, Option.map_eq_bind]
    rfl
  have hstart := filled_start files.length c
  unfold TrueSizes
  rw [hcall]
  rcases Nat.lt_or_ge files.length c.ent with hfew | henough
  · refine iff_of_false ?_ (fun h => absurd h.1 (by omega))
    rintro ⟨r, c', hmap, hrep⟩
    obtain ⟨g, hg, hr⟩ := Option.map_eq_some_iff.mp hmap
    have hent := hc.ent
    obtain ⟨b, hb⟩ : ∃ b, c.ent = files.length + b := ⟨c.ent - files.length, by omega⟩
    rw [hb, getFrom_break c.disk _ (Nat.zero_add _) (by omega)] at hg
    have hloop := hstart.getFrom hc (n := files.length) (by omega) (by omega)
    rw [Nat.zero_add] at hloop
    split at hloop
    · obtain ⟨g', hg', hfilled⟩ := hloop
      obtain rfl := Option.some.inj (hg.symm.trans hg')
      cases hr
      have hlast := (hrep rfl files.length hfew).1
      have hkeep : (g.finish.bsize files.length) = c.caller.bsize files.length :=
        hfilled.rest _ (le_refl _)
      have hpos := hc.pos _ hfew
      rw [hkeep, stored, if_neg (lt_irrefl _)] at hlast
      simp only [List.length_nil] at hlast
      omega
    · rw [hloop] at hg
      cases hg
  · have hloop := hstart.getFrom hc (n := c.ent) (by omega) (by omega)
    rw [Nat.zero_add] at hloop
    split at hloop
    · rename_i hlt
      obtain ⟨g, hg, hfilled⟩ := hloop
      refine iff_of_true ?_ ⟨henough, hlt⟩
      exact ⟨0, g.finish, by rw [hg]; rfl, fun _ i hi => hfilled.done i hi⟩
    · rename_i hge
      refine iff_of_false ?_ (fun h => hge h.2)
      rintro ⟨r, c', hmap, _⟩
      rw [hloop] at hmap
      cases hmap

/-- For every published list: the call reports true sizes if it finds no name in the first
line, or at least as many as were asked for and the sizes fit an `int`. -/
theorem trueSizes_iff {names : List CStr} {content : List UInt8} (fpath : List UInt8) {c : Call}
    (hfit : FitsTables names) (hholds : Holds names content) (hc : Request c) :
    TrueSizes (readBack names).length content fpath c ↔
      firstLine (lockedf names) = [] ∨
        (c.ent ≤ (readBack names).length ∧ offset c.caller.bsize c.ent < 2 ^ 31) := by
  have hread := readNames_holds (b := fpath) hfit hholds
  by_cases hline : firstLine (lockedf names) = []
  · rw [if_pos hline] at hread
    refine iff_of_true ⟨-1, c.caller, ?_, fun h => absurd h (by decide)⟩ (Or.inl hline)
    unfold _jitget
    rw [hread]
  · rw [if_neg hline] at hread
    rw [trueSizes_of_names hread hc, or_iff_right hline]

/-- A client of `ent` entries with regions of 8 bytes; every file holds three bytes. -/
def smallCall (ent : Nat) : Call where
  ent := ent
  disk := fun _ => .content [1, 2, 3]
  caller := ⟨fun _ => 0, fun _ => 0, fun _ => 8⟩

theorem request_smallCall {ent : Nat} (h : ent ≤ ftypeNum) : Request (smallCall ent) where
  ent := h
  pos := by
    intro i _
    change 0 < (8 : Int32).toInt
    decide
  regular := by
    intro i hi
    cases hi

/-- The second file is longer than its region, and the third one cannot be opened. -/
def threeCall : Call :=
  { smallCall 3 with
    disk := fun i => match i with
      | 0 => .content [1, 2, 3]
      | 1 => .content (List.replicate 12 5)
      | _ => .noOpen }

theorem request_threeCall : Request threeCall where
  ent := by decide
  pos := (@request_smallCall 3 (by decide)).pos
  regular := by
    intro i
    rcases i with _ | _ | i
    · exact FileRead.noConfusion
    · exact FileRead.noConfusion
    · exact FileRead.noConfusion

theorem trueSizes_iff_three :
    TrueSizes 3 [97, 59, 98, 59, 99, 59, 0, 120, 59, 0] (List.replicate pathMax 0) threeCall := by
  refine (@trueSizes_iff [⟨[97], by decide⟩, ⟨[98], by decide⟩, ⟨[99], by decide⟩]
    [97, 59, 98, 59, 99, 59, 0, 120, 59, 0] (List.replicate pathMax 0) threeCall (by decide)
    ⟨[120, 59, 0], rfl⟩ request_threeCall).mpr (Or.inr ⟨by decide, ?_⟩)
  change offset (fun _ => 8) 3 < 2 ^ 31
  decide

/-- One name was published and two were asked for: the second entry keeps its request. -/
theorem trueSizes_fails : Holds [⟨[97], by decide⟩] [97, 59, 0] ∧ Request (smallCall 2) ∧
    (∃ c', _jitget [97, 59, 0] true [] (smallCall 2) = some (0, c') ∧ c'.bsize 1 = 8) ∧
    ¬ TrueSizes 1 [97, 59, 0] [] (smallCall 2) := by
  refine ⟨⟨[], rfl⟩, request_smallCall (by decide), ⟨_, rfl, by decide⟩, fun h => ?_⟩
  have hread : (readNames [97, 59, 0] true []).2 = some [[97]] := by decide
  have hfew := ((trueSizes_of_names hread (request_smallCall (by decide))).mp h).1
  exact absurd hfew (by decide)

end JitDt.Lockfile
