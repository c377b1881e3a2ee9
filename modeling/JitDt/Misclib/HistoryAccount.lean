import JitDt.Lib.Ledger
import JitDt.Misclib.HistoryFiles

/-!
# Where the files of lwatcher go

A file leaves the ring by `_histremove`, which unlinks it, or when `histput` writes another
path into its place; then it stays on the disk and nothing knows it any more. Each of the
three branches that store a path can do that: the second file of one date and type, and the
first file of a new date in a slot where a late file was stored.
-/

namespace JitDt.Misclib

set_option autoImplicit false

open Machine Ledger

/-- The ring and every path passed to `histput`. -/
structure Kept where
  ring : Ring
  put : List Path

def HistOp.paths : HistOp → List Path
  | .put path _ _ => [path]
  | _ => []

def keptStep (s : Kept) (op : HistOp) : Option Kept :=
  (histStep s.ring op).map fun r => ⟨r, s.put ++ op.paths⟩

def Ring.place (r : Ring) (i : Fin maxHistory × Fin fnameMax) : Option Path :=
  (r.history i.1).fname i.2

/-- The paths of `put` that are still on the disk. -/
def onDisk (put : List Path) (r : Ring) : Set Path := {p | p ∈ put ∧ p ∉ r.unlinked}

/-- Every path put has been unlinked or stands in exactly one place. -/
def NoneForgotten (s : Kept) : Prop :=
  ∀ p ∈ s.put, p ∈ s.ring.unlinked ∨ ∃! i, s.ring.place i = some p

/-- The slot where a file of date `dt` is stored, unless it is too late, and the ring in
which that happens: the oldest slot was cleared if the ring was full. -/
def Ring.slotFor (r : Ring) (dt : Int64) : Option (Ring × Nat) :=
  if ull dt = r.date r.prodhistp then some (r, r.prodhistp)
  else if r.date r.prodhistp < ull dt then some (r.roomy, nextEntry r)
  else
    match histsearch r (ull dt) (r.nhist - 1) (rewindPointer r.nhist r.prodhistp) with
    | some (some i) => some (r, i)
    | _ => none

/-- The place of a new file holds no other file that is on the disk, and no other place
holds the same path. -/
def KeepsOthers (s : Kept) : HistOp → Prop
  | .put path dt tent => ∀ b i, s.ring.slotFor dt = some (b, i) →
      ∀ (hi : i < maxHistory) (t : Fin fnameMax), tent = t.val →
        Free (onDisk s.put b) b.place (⟨i, hi⟩, t) path ∧
          (path ∉ b.unlinked → OnlyAt b.place (⟨i, hi⟩, t) path)
  | _ => True

theorem noneForgotten_iff (s : Kept) : NoneForgotten s ↔ Accounted (onDisk s.put s.ring) s.ring.place := by
  constructor
  · rintro h p ⟨hput, hdisk⟩
    exact (h p hput).resolve_left hdisk
  · intro h p hput
    by_cases hgone : p ∈ s.ring.unlinked
    · exact Or.inl hgone
    · exact Or.inr (h p ⟨hput, hgone⟩)

section Account
variable {r : Ring} {put : List Path} {path : Path} {i : Nat} {t : Fin fnameMax}

theorem onDisk_put (put : List Path) (r : Ring) (path : Path) {q : Path} (hq : q ≠ path) :
    q ∈ onDisk (put ++ [path]) r ↔ q ∈ onDisk put r := by
  simp [onDisk, hq]

theorem place_store (hi : i < maxHistory) (t : Fin fnameMax) (path : Path) :
    (r.store i t path).place = Function.update r.place (⟨i, hi⟩, t) (some path) := by
  funext ⟨j, u⟩
  by_cases hj : j = ⟨i, hi⟩
  · subst hj
    by_cases hu : u = t
    · subst hu
      simp [Ring.place, Ring.store, Ring.withEntry]
    · rw [Function.update_of_ne (by simpa using hu)]
      simp [Ring.place, Ring.store, Ring.withEntry, hu]
  · have hne : j.val ≠ i := fun heq => hj (Fin.ext heq)
    rw [Function.update_of_ne (by simpa using fun heq => absurd heq hj)]
    simp [Ring.place, Ring.store, Ring.withEntry, hne]

theorem place_opened (hi : nextEntry r < maxHistory) (d : Nat) (t : Fin fnameMax) (path : Path) :
    (r.opened d t path).place = Function.update r.roomy.place (⟨nextEntry r, hi⟩, t) (some path) := by
  rw [← place_store]
  funext ⟨j, u⟩
  by_cases hj : j.val = nextEntry r
  · simp [Ring.place, Ring.opened, Ring.store, Ring.withEntry, hj]
  · simp [Ring.place, Ring.opened, Ring.store, Ring.withEntry, hj]

theorem accounted_removed (h : Accounted (onDisk put r) r.place) :
    Accounted (onDisk put r.removed) r.removed.place := by
  apply h.clear
  · rintro p ⟨hput, hgone⟩
    exact ⟨hput, fun hmem => hgone (List.mem_append_left _ hmem)⟩
  · intro j p hp
    exact fname_of_removed hp
  · rintro ⟨j, u⟩ p ⟨_, hgone⟩ hp
    have hj : j.val ≠ r.rmhistp := by
      intro hj
      apply hgone
      apply List.mem_append_right
      rw [← hj]
      exact List.mem_filterMap.mpr ⟨u, List.mem_finRange u, hp⟩
    simpa [Ring.place, Ring.removed, hj] using hp

theorem accounted_roomy (h : Accounted (onDisk put r) r.place) :
    Accounted (onDisk put r.roomy) r.roomy.place := by
  unfold Ring.roomy
  split
  · exact accounted_removed (r := r.advanced) h
  · exact h

/-- A path is stored in a ring that holds each file once. -/
theorem stored_iff {b : Ring} (h : Accounted (onDisk put b) b.place) (hi : i < maxHistory)
    (t : Fin fnameMax) (path : Path) :
    Accounted (onDisk (put ++ [path]) b) (Function.update b.place (⟨i, hi⟩, t) (some path)) ↔
      Free (onDisk put b) b.place (⟨i, hi⟩, t) path ∧
        (path ∉ b.unlinked → OnlyAt b.place (⟨i, hi⟩, t) path) := by
  rw [accounted_put_iff h fun q hq => onDisk_put put b path hq]
  have hpath : path ∈ onDisk (put ++ [path]) b ↔ path ∉ b.unlinked := by simp [onDisk]
  rw [hpath]

/-- When the slot is known, the condition on the step speaks of that slot. -/
theorem keepsOthers_put_iff {s : Kept} {b : Ring} {dt : Int64} (hslot : s.ring.slotFor dt = some (b, i))
    (hi : i < maxHistory) : KeepsOthers s (.put path dt t.val) ↔
      Free (onDisk s.put b) b.place (⟨i, hi⟩, t) path ∧
        (path ∉ b.unlinked → OnlyAt b.place (⟨i, hi⟩, t) path) := by
  constructor
  · exact fun h => h b i hslot hi t rfl
  · intro h b' i' hslot' hi' u hu
    rw [hslot] at hslot'
    cases hslot'
    obtain rfl : t = u := Fin.ext (by omega)
    exact h

end Account

section Step
variable {s s' : Kept} {op : HistOp}

/-- A call keeps the account exactly when it overwrites no file and stores none twice. -/
theorem noneForgotten_step (hallowed : Allowed s.ring op) (h : keptStep s op = some s')
    (hs : NoneForgotten s) : NoneForgotten s' ↔ KeepsOthers s op := by
  obtain ⟨r, hr, rfl⟩ := Option.map_eq_some_iff.mp h
  rw [noneForgotten_iff] at hs ⊢
  cases op with
  | get =>
    obtain rfl := histStep_get hr
    refine iff_of_true ?_ trivial
    simpa [HistOp.paths] using hs
  | remove =>
    obtain ⟨_, _, rfl⟩ := histremove_iff.mp hr
    refine iff_of_true ?_ trivial
    simpa [HistOp.paths] using accounted_removed hs
  | put path dt tent =>
    obtain ⟨_, hlow, hhigh⟩ := hallowed
    cases histput_cases hr with
    | refused ht _ => omega
    | same t ht hp hd h' =>
      subst h' ht
      have hslot : s.ring.slotFor dt = some (s.ring, s.ring.prodhistp) := if_pos hd
      rw [keepsOthers_put_iff hslot hp, ← stored_iff hs hp t path, ← place_store]
      rfl
    | new t ht hp hd _ h' =>
      subst h' ht
      have hslot : s.ring.slotFor dt = some (s.ring.roomy, nextEntry s.ring) :=
        (if_neg hd.ne').trans (if_pos hd)
      rw [keepsOthers_put_iff hslot hp, ← stored_iff (accounted_roomy hs) hp t path,
        ← place_opened hp (ull dt)]
      rfl
    | late t ht i hi hd _ hsearch h' =>
      subst h' ht
      have hslot : s.ring.slotFor dt = some (s.ring, i) := by
        unfold Ring.slotFor
        rw [if_neg (show ¬ ull dt = s.ring.date s.ring.prodhistp from hd.ne),
          if_neg (show ¬ s.ring.date s.ring.prodhistp < ull dt from hd.not_gt), hsearch]
      rw [keepsOthers_put_iff hslot hi, ← stored_iff hs hi t path, ← place_store]
      rfl
    | lost _ hd hsearch h' =>
      subst h'
      have hslot : s.ring.slotFor dt = none := by
        unfold Ring.slotFor
        rw [if_neg (show ¬ ull dt = s.ring.date s.ring.prodhistp from hd.ne),
          if_neg (show ¬ s.ring.date s.ring.prodhistp < ull dt from hd.not_gt), hsearch]
      refine iff_of_true ?_ fun b i hsome => ?_
      · -- the file itself is unlinked
        apply hs.mono
        rintro q ⟨hq, hgone⟩
        rcases List.mem_append.mp hq with hq | hq
        · exact ⟨hq, fun hmem => hgone (List.mem_append_left _ hmem)⟩
        · exact absurd (List.mem_append_right _ hq) hgone
      · rw [hslot] at hsome
        cases hsome

end Step

def keptStart (nh : Int) : Kept := ⟨histinit nh .static, []⟩

/-- In every run of allowed calls, no file is ever forgotten if and only if every `histput`
finds its place free of other files and its path in no other place. -/
theorem none_forgotten_iff {nh : Int} {ops : List HistOp} {s : Kept}
    (h : exec keptStep (keptStart nh) ops = some s)
    (hallowed : Along keptStep (fun s => Allowed s.ring) (keptStart nh) ops) :
    Always keptStep NoneForgotten (keptStart nh) ops ↔
      Along keptStep KeepsOthers (keptStart nh) ops := by
  refine always_iff_along_within (I := fun _ => True) ?_ trivial ?_ hallowed h
  · intro s op t _ hs hop hstep
    exact ⟨trivial, noneForgotten_step hop hstep hs⟩
  · intro p hp
    cases hp

/-- The place of a new file is empty, and its path stands nowhere. -/
def StoredFresh (s : Kept) : HistOp → Prop
  | .put path dt tent => ∀ x ∈ s.ring.slotFor dt, ∀ j, x.1.place j ≠ some path ∧
      (j.1.val = x.2 → (j.2.val : Int) = tent → x.1.place j = none)
  | _ => True

instance (s : Kept) : (op : HistOp) → Decidable (StoredFresh s op)
  | .put path dt tent => inferInstanceAs (Decidable (∀ x ∈ s.ring.slotFor dt, ∀ j,
      x.1.place j ≠ some path ∧ (j.1.val = x.2 → (j.2.val : Int) = tent → x.1.place j = none)))
  | .get => isTrue trivial
  | .remove => isTrue trivial

theorem keepsOthers_of_fresh {s : Kept} {op : HistOp} (h : StoredFresh s op) :
    KeepsOthers s op := by
  cases op with
  | put path dt tent =>
    intro b i hslot hi t ht
    have hfresh := h (b, i) hslot
    exact ⟨Free.of_none ((hfresh (⟨i, hi⟩, t)).2 rfl ht.symm), fun _ j hj => absurd hj (hfresh j).1⟩
  | get => trivial
  | remove => trivial

/-- Two files of the first date, and six more dates in a ring of five slots: the first three dates
are removed, and two of their slots are taken over. The last file is late. -/
def recycledSlots : List HistOp :=
  [.put (letter 0) 1 0, .put (letter 1) 1 1, .put (letter 2) 2 0, .put (letter 3) 3 0,
    .put (letter 4) 4 0, .put (letter 5) 5 0, .put (letter 6) 6 0, .put (letter 7) 7 0,
    .put (letter 8) 6 1]

theorem none_forgotten_iff_recycled :
    ∃ s, exec keptStep (keptStart 5) recycledSlots = some s ∧
      s.ring.unlinked = [letter 0, letter 1, letter 2, letter 3] ∧
      Always keptStep NoneForgotten (keptStart 5) recycledSlots := by
  have hrun : exec keptStep (keptStart 5) recycledSlots = some _ := rfl
  exact ⟨_, hrun, by decide, (none_forgotten_iff hrun (by decide)).mpr
    ((show Along keptStep StoredFresh (keptStart 5) recycledSlots by decide).mono
      fun _ _ => keepsOthers_of_fresh)⟩

def twoOfOneType : List HistOp := [.put (letter 0) 1 0, .put (letter 1) 1 0]

/-- The second file of one date and type takes the place of the first, which is neither
stored nor unlinked then. -/
theorem file_forgotten : Along keptStep (fun s => Allowed s.ring) (keptStart 5) twoOfOneType ∧
    ∃ s, exec keptStep (keptStart 5) twoOfOneType = some s ∧ letter 0 ∈ s.put ∧
      letter 0 ∉ s.ring.unlinked ∧ (∀ i, s.ring.place i ≠ some (letter 0)) ∧
      ¬ Always keptStep NoneForgotten (keptStart 5) twoOfOneType := by
  obtain ⟨s, hs, hput, hkept, hnowhere⟩ : ∃ s, exec keptStep (keptStart 5) twoOfOneType = some s ∧
      letter 0 ∈ s.put ∧ letter 0 ∉ s.ring.unlinked ∧ ∀ i, s.ring.place i ≠ some (letter 0) :=
    ⟨_, rfl, by decide, by decide, by decide⟩
  refine ⟨by decide, s, hs, hput, hkept, hnowhere, fun hall => ?_⟩
  rcases hall twoOfOneType s (List.prefix_refl _) hs (letter 0) hput with hgone | ⟨i, hi, _⟩
  · exact hkept hgone
  · exact hnowhere i hi

end JitDt.Misclib
