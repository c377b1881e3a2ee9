import JitDt.Lib.Ledger
import JitDt.Kwatcher.Bounds

/-!
# Where the files of kwatcher go

`mkhist` renames a file into the data directory before it looks for a slot. When the slot
already has a file of that type, the new name is written nowhere: nothing will ever unlink
that file. The names that are present in the directory follow from the renames and unlinks.
-/

namespace JitDt.Kwatcher

set_option autoImplicit false

open Machine Ledger
open Misclib (Path HistData fnameMax)

/-- The ring and the names of the renamed files that are in the data directory. -/
structure Account where
  hist : History
  present : List Path

/-- The file of that name is no longer there. -/
def without (present : List Path) (name : Path) : List Path := present.filter (· ≠ name)

def FileOp.apply (renamed : Bool) (present : List Path) : FileOp → List Path
  | .rename old new => if renamed then without present old ++ [new] else present
  | .unlink name => without present name

section Definitions
variable (cfg : Config)

def accountStep (s : Account) (l : Label) : Option Account :=
  (mkhist cfg s.hist l.path l.renamed).map fun r =>
    ⟨r.hist, r.ops.foldl (FileOp.apply l.renamed) s.present⟩

end Definitions

def History.place (h : History) (i : Fin maxHistory × Fin fnameMax) : Option Path :=
  (h.history i.1).fname i.2

/-- Every renamed file that is still there is named in exactly one place. -/
def EachNamed (s : Account) : Prop := ∀ p ∈ s.present, ∃! i, s.hist.place i = some p

/-- The slot that `mkhist` finds for a date. -/
def History.slotFor (h : History) (dt : Nat) : Option Nat :=
  if dt = h.date h.curhistp then some h.curhistp
  else
    match if dt < h.date h.curhistp then h.findLate dt 2 h.curhistp else none with
    | some q => some q
    | none => if dt = h.date h.next then some h.next else none

/-- The ring after the slot `q` was emptied. -/
def History.emptied (h : History) (entries q : Nat) : History :=
  { h with history := Function.update h.history q (cleared (h.history q) entries) }

/-- The renamed files that are there after the rename, and after those of a slot that is
taken over have been unlinked. -/
def presentAfter (cfg : Config) (s : Account) (path new : Path) : List Path :=
  (without s.present path ++ [new]).filter
    (· ∉ removed (s.hist.history s.hist.next) cfg.sync_nsize)

/-- A file that finds its place taken has a name that stands in exactly one place already.
One that is stored has a name that stands nowhere else, after a slot taken over was emptied,
and its place holds nothing that is still there. -/
def KeepsNamed (cfg : Config) (s : Account) (l : Label) : Prop :=
  ∀ a ∈ cfg.arrival l,
    (∀ q ∈ s.hist.slotFor a.date, ∀ hq : q < maxHistory,
      if ((s.hist.history q).fname a.entpoint).isSome then ∃! i, s.hist.place i = some a.fnam
      else OnlyAt s.hist.place (⟨q, hq⟩, a.entpoint) a.fnam) ∧
    (s.hist.slotFor a.date = none → ∀ hq : s.hist.next < maxHistory,
      let h := s.hist.emptied cfg.sync_nsize s.hist.next
      let present := presentAfter cfg s l.path a.fnam
      Free {p | p ∈ present} h.place (⟨s.hist.next, hq⟩, a.entpoint) a.fnam ∧
        (a.fnam ∈ present → OnlyAt h.place (⟨s.hist.next, hq⟩, a.entpoint) a.fnam))

/-! ## The slot -/

section Slot
variable {h : History} {entries dt q : Nat} {e : Fin fnameMax} {cp : Path}

/-- The file goes into the slot of its date, or into the next one, which is emptied for it. -/
theorem enter_eq : h.enter entries dt e cp =
    match h.slotFor dt with
    | some q => (({ h with curhistp := q }.fill entries e cp).1,
        ({ h with curhistp := q }.fill entries e cp).2, [])
    | none => ({ h with curhistp := h.next }.newEntry entries dt e cp, none,
        removed (h.history h.next) entries) := by
  unfold History.slotFor History.enter
  by_cases hcur : dt = h.date h.curhistp
  · rw [if_pos hcur, if_pos hcur]
  · rw [if_neg hcur, if_neg hcur]
    cases if dt < h.date h.curhistp then h.findLate dt 2 h.curhistp else none with
    | some p => rfl
    | none =>
      by_cases hnext : dt = h.date h.next
      · simp only
        rw [if_pos hnext]
        exact if_pos hnext
      · simp only
        rw [if_neg hnext]
        exact if_neg hnext

theorem slotFor_lt (hf : FitsArray h) (hq : h.slotFor dt = some q) : q < maxHistory := by
  refine lt_of_lt_of_le ?_ hf.small
  unfold History.slotFor at hq
  split at hq
  · obtain rfl := Option.some.inj hq
    exact hf.cur_lt
  · cases hlate : if dt < h.date h.curhistp then h.findLate dt 2 h.curhistp else none with
    | some p =>
      rw [hlate] at hq
      obtain rfl := Option.some.inj hq
      split at hlate
      · exact findLate_lt hf.pos hlate
      · cases hlate
    | none =>
      rw [hlate] at hq
      simp only at hq
      split at hq
      · obtain rfl := Option.some.inj hq
        exact hf.next_lt
      · cases hq

theorem place_update (hq : q < maxHistory) (x : HistData) (e : Fin fnameMax) (cp : Path)
    (hx : x.fname = Function.update (h.history q).fname e (some cp)) (c : Nat) :
    History.place ⟨Function.update h.history q x, h.nhist, c⟩ =
      Function.update h.place (⟨q, hq⟩, e) (some cp) := by
  funext ⟨j, u⟩
  by_cases hj : j = ⟨q, hq⟩
  · subst hj
    by_cases hu : u = e
    · subst hu
      simp [History.place, hx]
    · rw [Function.update_of_ne (by simpa using hu)]
      simp [History.place, hx, hu]
  · have hne : j.val ≠ q := fun heq => hj (Fin.ext heq)
    rw [Function.update_of_ne (by simpa using fun heq => absurd heq hj)]
    simp [History.place, hne]

end Slot

/-! ## The names that are there -/

theorem mem_without {present : List Path} {name p : Path} :
    p ∈ without present name ↔ p ∈ present ∧ p ≠ name := by
  simp [without]

theorem foldl_unlink (renamed : Bool) (present names : List Path) :
    (names.map FileOp.unlink).foldl (FileOp.apply renamed) present =
      present.filter (· ∉ names) := by
  induction names generalizing present with
  | nil => simp
  | cons n names ih =>
    rw [List.map_cons, List.foldl_cons, ih]
    simp only [FileOp.apply, without, List.filter_filter]
    congr 1
    funext p
    simp [Bool.and_comm]

section Step
variable {cfg : Config} {s s' : Account} {l : Label}

theorem mkhist_ops_arrival {a : Arrival} {r : Result} (ha : cfg.arrival l = some a)
    (h : mkhist cfg s.hist l.path l.renamed = some r) :
    l.renamed = true ∧ r.hist = (s.hist.enter cfg.sync_nsize a.date a.entpoint a.fnam).1 ∧
      r.ops = .rename l.path a.fnam ::
        (s.hist.enter cfg.sync_nsize a.date a.entpoint a.fnam).2.2.map .unlink := by
  unfold Config.arrival at ha
  unfold mkhist at h
  cases hm : cfg.regex_match l.path with
  | none => simp [hm] at ha
  | some m =>
    obtain ⟨date, type, fnam⟩ := m
    simp only [hm] at ha h
    cases he : cfg.sync_entry type with
    | none => simp [he] at ha
    | some e =>
      simp only [he] at ha h
      by_cases hren : l.renamed
      · by_cases hn : cfg.sync_nsize ≤ fnameMax
        · rw [if_pos hren, dif_pos hn] at ha h
          rw [← Option.some.inj h, ← Option.some.inj ha]
          exact ⟨hren, rfl, rfl⟩
        · rw [if_pos hren, dif_neg hn] at ha
          cases ha
      · rw [if_neg hren] at ha
        cases ha

/-- A file that does not get to the ring adds no name. -/
theorem mkhist_ops_other {r : Result} (ha : cfg.arrival l = none)
    (h : mkhist cfg s.hist l.path l.renamed = some r) :
    r.hist = s.hist ∧ r.ops.foldl (FileOp.apply l.renamed) s.present ⊆ s.present := by
  unfold Config.arrival at ha
  unfold mkhist at h
  cases hm : cfg.regex_match l.path with
  | none =>
    simp only [hm] at h
    rw [← Option.some.inj h]
    exact ⟨rfl, List.Subset.refl _⟩
  | some m =>
    obtain ⟨date, type, fnam⟩ := m
    simp only [hm] at ha h
    cases he : cfg.sync_entry type with
    | none =>
      simp only [he] at h
      rw [← Option.some.inj h]
      exact ⟨rfl, List.filter_subset_self _⟩
    | some e =>
      simp only [he] at ha h
      by_cases hren : l.renamed
      · by_cases hn : cfg.sync_nsize ≤ fnameMax
        · rw [if_pos hren, dif_pos hn] at ha
          cases ha
        · rw [if_pos hren, dif_neg hn] at h
          cases h
      · rw [if_neg hren] at h
        rw [← Option.some.inj h]
        refine ⟨rfl, ?_⟩
        simp [FileOp.apply, hren]

/-! ## One call -/

theorem fname_cleared {x : HistData} {n : Nat} {e : Fin fnameMax} {p : Path}
    (h : (cleared x n).fname e = some p) : x.fname e = some p := by
  unfold cleared at h
  split at h
  · simp only at h
    split at h
    · cases h
    · exact h
  · exact h

theorem fname_kept {x : HistData} {n : Nat} {e : Fin fnameMax} {p : Path}
    (h : x.fname e = some p) (hp : p ∉ removed x n) : (cleared x n).fname e = some p := by
  unfold removed at hp
  unfold cleared
  split
  · rename_i hpos
    rw [if_pos hpos] at hp
    simp only
    split
    · rename_i he
      exact absurd (List.mem_filterMap.mpr ⟨e, List.mem_finRange e, by rw [if_pos he, h]⟩) hp
    · exact h
  · exact h

theorem accounted_emptied (entries q : Nat) {present : List Path}
    (h : Accounted {p | p ∈ present} s.hist.place) :
    Accounted {p | p ∈ present ∧ p ∉ removed (s.hist.history q) entries}
      (s.hist.emptied entries q).place := by
  apply h.clear
  · exact fun p hp => hp.1
  · rintro ⟨j, u⟩ p hp
    by_cases hj : j.val = q
    · subst hj
      simp only [History.place, History.emptied, Function.update_self] at hp
      exact fname_cleared hp
    · simpa [History.place, History.emptied, hj] using hp
  · rintro ⟨j, u⟩ p ⟨_, hgone⟩ hp
    by_cases hj : j.val = q
    · subst hj
      simp only [History.place, History.emptied, Function.update_self]
      exact fname_kept hp hgone
    · simpa [History.place, History.emptied, hj] using hp

theorem place_newEntry (h : History) (entries dt : Nat) (e : Fin fnameMax) (cp : Path)
    (hq : h.next < maxHistory) :
    ({ h with curhistp := h.next }.newEntry entries dt e cp).place =
      Function.update (h.emptied entries h.next).place (⟨h.next, hq⟩, e) (some cp) := by
  have hplace := @place_update (h.emptied entries h.next) h.next hq
    (addFile { cleared (h.history h.next) entries with date := dt } e cp) e cp
    (by simp [History.emptied, addFile]) h.next
  rw [← hplace]
  simp [History.newEntry, History.emptied]

theorem keepsNamed_slot_iff {a : Arrival} {q : Nat} (ha : cfg.arrival l = some a)
    (hslot : s.hist.slotFor a.date = some q) (hq : q < maxHistory) : KeepsNamed cfg s l ↔
      if ((s.hist.history q).fname a.entpoint).isSome then ∃! i, s.hist.place i = some a.fnam
      else OnlyAt s.hist.place (⟨q, hq⟩, a.entpoint) a.fnam := by
  constructor
  · exact fun h => (h a ha).1 q hslot hq
  · intro h b hb
    rw [ha] at hb
    cases hb
    refine ⟨fun q' hq' _ => ?_, fun hnone => ?_⟩
    · rw [hslot] at hq'
      cases hq'
      exact h
    · rw [hslot] at hnone
      cases hnone

theorem keepsNamed_new_iff {a : Arrival} (ha : cfg.arrival l = some a)
    (hslot : s.hist.slotFor a.date = none) (hq : s.hist.next < maxHistory) : KeepsNamed cfg s l ↔
      Free {p | p ∈ presentAfter cfg s l.path a.fnam}
        (s.hist.emptied cfg.sync_nsize s.hist.next).place (⟨s.hist.next, hq⟩, a.entpoint) a.fnam ∧
      (a.fnam ∈ presentAfter cfg s l.path a.fnam →
        OnlyAt (s.hist.emptied cfg.sync_nsize s.hist.next).place (⟨s.hist.next, hq⟩, a.entpoint)
          a.fnam) := by
  constructor
  · exact fun h => (h a ha).2 hslot hq
  · intro h b hb
    rw [ha] at hb
    cases hb
    refine ⟨fun q' hq' _ => ?_, fun _ _ => h⟩
    rw [hslot] at hq'
    cases hq'

/-- A call keeps every file named exactly when the condition on its place is met. -/
theorem eachNamed_step (hf : FitsArray s.hist) (hs : EachNamed s) (h : accountStep cfg s l = some s') :
    FitsArray s'.hist ∧ (EachNamed s' ↔ KeepsNamed cfg s l) := by
  obtain ⟨r, hr, rfl⟩ := Option.map_eq_some_iff.mp h
  cases ha : cfg.arrival l with
  | none =>
    obtain ⟨hhist, hsub⟩ := mkhist_ops_other ha hr
    refine ⟨hhist ▸ hf, iff_of_true ?_ ?_⟩
    · change Accounted {p | p ∈ r.ops.foldl (FileOp.apply l.renamed) s.present} r.hist.place
      rw [hhist]
      exact Accounted.mono hs fun p hp => hsub hp
    · intro a hmem
      rw [ha] at hmem
      cases hmem
  | some a =>
    obtain ⟨hren, hhist, hops⟩ := mkhist_ops_arrival ha hr
    have hbase : Accounted {p | p ∈ without s.present l.path} s.hist.place :=
      Accounted.mono hs fun p hp => (mem_without.mp hp).1
    have hnew : ∀ q, q ≠ a.fnam → (q ∈ {p | p ∈ without s.present l.path ++ [a.fnam]} ↔
        q ∈ {p | p ∈ without s.present l.path}) := by
      intro q hq
      simp [hq]
    refine ⟨hhist ▸ hf.enter, ?_⟩
    change Accounted {p | p ∈ r.ops.foldl (FileOp.apply l.renamed) s.present} r.hist.place ↔ _
    rw [hops, List.foldl_cons, foldl_unlink, hhist]
    simp only [FileOp.apply, if_pos hren]
    cases hslot : s.hist.slotFor a.date with
    | some q =>
      rw [enter_eq, hslot, keepsNamed_slot_iff ha hslot (slotFor_lt hf hslot)]
      simp only [List.not_mem_nil, not_false_eq_true, decide_true, List.filter_true]
      unfold History.fill
      simp only
      split
      · refine (accounted_insert_iff hbase hnew).trans ?_
        simp
      · rename_i hfree
        have hplace := place_update (slotFor_lt hf hslot)
          (addFile (s.hist.history q) a.entpoint a.fnam) a.entpoint a.fnam rfl q
        have hnone : s.hist.place (⟨q, slotFor_lt hf hslot⟩, a.entpoint) = none := by
          simpa [History.place] using hfree
        simp only [hplace]
        rw [accounted_put_iff hbase hnew]
        simp [Free.of_none hnone]
    | none =>
      have hq : s.hist.next < maxHistory := hf.next_lt.trans_le hf.small
      rw [enter_eq, hslot, keepsNamed_new_iff ha hslot hq, place_newEntry _ _ _ _ _ hq]
      have hrest : ∀ q, q ≠ a.fnam → (q ∈ {p | p ∈ presentAfter cfg s l.path a.fnam} ↔
          q ∈ {p | p ∈ without s.present l.path ∧
            p ∉ removed (s.hist.history s.hist.next) cfg.sync_nsize}) := by
        intro q hne
        simp [presentAfter, hne]
      rw [free_congr hrest]
      exact accounted_put_iff (accounted_emptied cfg.sync_nsize s.hist.next hbase) hrest

end Step

section Runs
variable {cfg : Config} {nhist : Nat} {ls : List Label} {s : Account}

def accountStart (nhist : Nat) : Account := ⟨.init nhist, []⟩

/-- In every run, no file is forgotten or named twice if and only if no file finds its place
taken by another name, and none is stored under a name that is stored already. -/
theorem each_named_iff (hpos : 0 < nhist) (hsmall : nhist ≤ maxHistory)
    (h : exec (accountStep cfg) (accountStart nhist) ls = some s) :
    Always (accountStep cfg) EachNamed (accountStart nhist) ls ↔
      Along (accountStep cfg) (KeepsNamed cfg) (accountStart nhist) ls := by
  refine always_iff_along (I := fun s => FitsArray s.hist) ?_ ⟨hpos, hsmall, hpos⟩ ?_ h
  · intro s l t hf hs hstep
    exact eachNamed_step hf hs hstep
  · intro p hp
    cases hp

end Runs

theorem nul_free_type : (0 : UInt8) ∉ [65] := by decide

theorem nul_free_date (path : Path) : (0 : UInt8) ∉ path.bytes.take 1 :=
  fun h => path.nul_free (List.mem_of_mem_take h)

/-- One type only, and every file keeps its name. -/
def sameType : Config where
  regex_match := fun path => some
    (⟨path.bytes.take 1, nul_free_date path⟩, ⟨[65], nul_free_type⟩, path)
  synctype := [⟨[65], nul_free_type⟩]

/-- The place of a new file is empty, and its name stands nowhere. -/
def StoredFresh (cfg : Config) (s : Account) (l : Label) : Prop :=
  ∀ a ∈ cfg.arrival l,
    let x := match s.hist.slotFor a.date with
      | some q => (s.hist, q)
      | none => (s.hist.emptied cfg.sync_nsize s.hist.next, s.hist.next)
    (x.1.history x.2).fname a.entpoint = none ∧ ∀ j, x.1.place j ≠ some a.fnam

instance (cfg : Config) (s : Account) (l : Label) : Decidable (StoredFresh cfg s l) :=
  inferInstanceAs (Decidable (∀ a ∈ cfg.arrival l, _ ∧ _))

theorem keepsNamed_of_fresh {cfg : Config} {s : Account} {l : Label} (h : StoredFresh cfg s l) :
    KeepsNamed cfg s l := by
  intro a ha
  obtain ⟨hempty, hnew⟩ := h a ha
  constructor
  · intro q hq hlt
    rw [Option.mem_def.mp hq] at hempty hnew
    rw [hempty]
    exact fun j hj => absurd hj (hnew j)
  · intro hnone hlt
    rw [hnone] at hempty hnew
    exact ⟨Free.of_none hempty, fun _ j hj => absurd hj (hnew j)⟩

/-- The second file of date 2 is late, and date 6 takes over the slot of date 1, whose files are
unlinked. -/
def recycledSlot : List Label :=
  [fileA 1, fileB 1, fileA 2, fileA 3, fileB 2, fileB 3, fileA 4, fileA 5, fileA 6]

theorem each_named_iff_recycled :
    ∃ s, exec (accountStep twoTypes) (accountStart 5) recycledSlot = some s ∧
      s.present.map CStr.bytes = [[50, 65], [51, 65], [50, 66], [51, 66], [52, 65], [53, 65],
        [54, 65]] ∧
      Always (accountStep twoTypes) EachNamed (accountStart 5) recycledSlot := by
  have hrun : exec (accountStep twoTypes) (accountStart 5) recycledSlot = some _ := rfl
  exact ⟨_, hrun, by decide, (each_named_iff (by decide) (by decide) hrun).mpr
    ((show Along (accountStep twoTypes) (StoredFresh twoTypes) (accountStart 5) recycledSlot by
      decide).mono fun _ _ => keepsNamed_of_fresh)⟩

/-- The second file of one date and type is renamed, and its name is written nowhere. -/
theorem renamed_file_forgotten :
    let first : Path := ⟨[49, 97], by decide⟩
    let second : Path := ⟨[49, 98], by decide⟩
    let ls : List Label := [⟨first, true⟩, ⟨second, true⟩]
    ∃ s, exec (accountStep sameType) (accountStart 5) ls = some s ∧ second ∈ s.present ∧
      (∀ i, s.hist.place i ≠ some second) ∧
      ¬ Always (accountStep sameType) EachNamed (accountStart 5) ls := by
  intro first second ls
  obtain ⟨s, hs, hthere, hnowhere⟩ : ∃ s, exec (accountStep sameType) (accountStart 5) ls = some s ∧
      second ∈ s.present ∧ ∀ i, s.hist.place i ≠ some second := ⟨_, rfl, by decide, by decide⟩
  refine ⟨s, hs, hthere, hnowhere, fun hall => ?_⟩
  obtain ⟨i, hi, _⟩ := hall ls s (List.prefix_refl ls) hs second hthere
  exact hnowhere i hi

end JitDt.Kwatcher
