import JitDt.Inotifylib.Listing

/-!
# What `dirs_check` reports

The table is the result, the place where the next path is put together, and the parameter of the
call. As long as all goes well a call keeps the rows up to its own. A directory that cannot be
opened answers 0: the rows are filled from the beginning again, and the top directory is lost. A
file that is reported as such is scanned like a directory, under the path that an earlier scan has
left in the row.
-/

namespace JitDt.Inotifylib

set_option autoImplicit false

open PathName

/-! ## One entry -/

/-- The body of the loop of `dirs_check`. -/
def visit (w : World) (k : Nat) (path : PathArg) (x : Nat × (Nat → Path)) (d : Path × DType) :
    Option (Nat × (Nat → Path)) :=
  if skipped d then some x
  else if maxSubdirs ≤ x.1 then none
  else
    let r := subdir w (path.read x.2) x.2 x.1 d
    if r.2 then
      dirs_check w k x.1 (.entry x.1) true (Function.update r.1 x.1 (r.1 x.1 ++ [slash]))
    else some (x.1, r.1)

theorem dirs_check_succ (w : World) (k e : Nat) (path : PathArg) (t : Nat → Path) :
    dirs_check w (k + 1) e path true t =
      if maxSubdirs ≤ e then none
      else
        (w.readdir (path.read (Function.update t e (path.read t)))).elim
          (some (0, Function.update t e (path.read t))) fun dents =>
            dents.foldlM (visit w k path) (e + 1, Function.update t e (path.read t)) := by
  rw [dirs_check]
  split
  · rfl
  · rw [if_neg Bool.true_eq_false_eq_False]
    cases w.readdir (path.read (Function.update t e (path.read t))) <;> rfl

/-- A call for the path that has been put together in row `e`. -/
theorem dirs_check_entry (w : World) (k e : Nat) (t : Nat → Path) (s : Path) :
    dirs_check w (k + 1) e (.entry e) true (Function.update t e s) =
      if maxSubdirs ≤ e then none
      else
        (w.readdir s).elim (some (0, Function.update t e s))
          fun dents => dents.foldlM (visit w k (.entry e)) (e + 1, Function.update t e s) := by
  have hs : (PathArg.entry e).read (Function.update t e s) = s := Function.update_self ..
  rw [dirs_check_succ, hs, Function.update_idem, hs]

/-- The parameter names `s` as long as row `e` does. -/
def PathArg.Names (path : PathArg) (e : Nat) (s : Path) : Prop :=
  ∀ u : Nat → Path, u e = s → path.read u = s

theorem names_buf (p : Path) (e : Nat) : (PathArg.buf p).Names e p := fun _ _ => rfl

theorem names_entry (e : Nat) (s : Path) : (PathArg.entry e).Names e s := fun _ h => h

/-- What the body of the loop can do with an entry of the directory `p`. -/
inductive Visited (w : World) (k : Nat) (p : Path) (x : Nat × (Nat → Path)) (d : Path × DType) :
    Nat × (Nat → Path) → Prop where
  | skip : skipped d = true → Visited w k p x d x
  | pass : x.1 < maxSubdirs → d.2 = .unknown → w.stat (p ++ slash :: d.1) ≠ some true →
      Visited w k p x d (x.1, Function.update x.2 x.1 (p ++ slash :: d.1))
  | call {s : Path} {y : Nat × (Nat → Path)} : skipped d = false → x.1 < maxSubdirs →
      (d.2 = .unknown → w.stat (p ++ slash :: d.1) = some true) →
      (d.2 ≠ .other → s = p ++ slash :: d.1 ++ [slash]) →
      dirs_check w k x.1 (.entry x.1) true (Function.update x.2 x.1 s) = some y →
      Visited w k p x d y

section
variable {w : World} {k e : Nat} {path : PathArg} {x y : Nat × (Nat → Path)} {d : Path × DType}

theorem visited (h : visit w k path x d = some y) : Visited w k (path.read x.2) x d y := by
  obtain ⟨name, t⟩ := d
  unfold visit at h
  split at h
  · rename_i hskip
    cases h
    exact .skip hskip
  · rename_i hskip
    rw [Bool.not_eq_true] at hskip
    split at h
    · cases h
    · rename_i hlt
      rw [not_le] at hlt
      cases t with
      | unknown =>
        by_cases hstat : w.stat (path.read x.2 ++ slash :: name) = some true
        · simp only [subdir, hstat, decide_true, if_true, Function.update_self,
            Function.update_idem] at h
          exact .call hskip hlt (fun _ => hstat) (fun _ => rfl) h
        · simp only [subdir, hstat, decide_false, Bool.false_eq_true, if_false] at h
          cases h
          exact .pass hlt rfl hstat
      | dir =>
        simp only [subdir, if_true, Function.update_self, Function.update_idem] at h
        exact .call hskip hlt (fun hu => by cases hu) (fun _ => rfl) h
      | other =>
        simp only [subdir, if_true] at h
        exact .call hskip hlt (fun hu => by cases hu) (fun ho => absurd rfl ho) h

end

/-! ## What a call leaves in the table -/

/-- The rows up to `e` are kept, and no row behind it is one of `R`. -/
structure Kept (R : Path → Prop) (e : Nat) (t : Nat → Path) (y : Nat × (Nat → Path)) : Prop where
  longer : e < y.1
  same : ∀ i ≤ e, y.2 i = t i
  free : ∀ i, e < i → i < y.1 → ¬ R (y.2 i)

/-- More than `n` rows are reported, or none of `R`. -/
def Spoilt (R : Path → Prop) (n : Nat) (y : Nat × (Nat → Path)) : Prop :=
  n < y.1 ∨ ∀ i < y.1, ¬ R (y.2 i)

section
variable {w : World} {k e n : Nat} {R : Path → Prop} {path : PathArg} {t u : Nat → Path}
  {x y : Nat × (Nat → Path)} {d : Path × DType} {ds : List (Path × DType)}

theorem kept_start (R : Path → Prop) (e : Nat) (t : Nat → Path) : Kept R e t (e + 1, t) :=
  ⟨Nat.lt_succ_self e, fun _ _ => rfl, fun i h h' => absurd h' (by simp only; omega)⟩

theorem update_below {i : Nat} (h : i < x.1) (s : Path) :
    Function.update x.2 x.1 s i = x.2 i := Function.update_of_ne (ne_of_lt h) _ _

theorem Kept.update (h : Kept R e t x) (s : Path) :
    Kept R e t (x.1, Function.update x.2 x.1 s) := by
  refine ⟨h.longer, ?_, ?_⟩
  · intro i hi
    exact (update_below (hi.trans_lt h.longer) s).trans (h.same i hi)
  · intro i hi hix
    replace hix : i < x.1 := hix
    change ¬ R (Function.update x.2 x.1 s i)
    rw [update_below hix]
    exact h.free i hi hix

theorem Spoilt.update (h : Spoilt R n x) (s : Path) :
    Spoilt R n (x.1, Function.update x.2 x.1 s) := by
  rcases h with hlong | hfree
  · exact Or.inl hlong
  · right
    intro i hi
    replace hi : i < x.1 := hi
    change ¬ R (Function.update x.2 x.1 s i)
    rw [update_below hi]
    exact hfree i hi

/-- A call at the end of the table that keeps the rows up to its own. -/
theorem Kept.call {s : Path} (h : Kept R e t x) (hy : Kept R x.1 (Function.update x.2 x.1 s) y)
    (hs : ¬ R s) : Kept R e t y := by
  have hlt := h.longer
  refine ⟨hlt.trans hy.longer, ?_, ?_⟩
  · intro i hi
    rw [hy.same i (by omega), update_below (by omega)]
    exact h.same i hi
  · intro i hi hiy
    rcases lt_trichotomy i x.1 with hix | rfl | hix
    · rw [hy.same i (by omega), update_below (by omega)]
      exact h.free i hi hix
    · rw [hy.same x.1 (le_refl _), Function.update_self]
      exact hs
    · exact hy.free i hix hiy

theorem Spoilt.call {s : Path} (h : Spoilt R n x)
    (hy : Kept R x.1 (Function.update x.2 x.1 s) y) (hs : ¬ R s) : Spoilt R n y := by
  rcases h with hlong | hfree
  · exact Or.inl (hlong.trans hy.longer)
  · right
    intro i hiy
    rcases lt_trichotomy i x.1 with hix | rfl | hix
    · rw [hy.same i (by omega), update_below (by omega)]
      exact hfree i hix
    · rw [hy.same x.1 (le_refl _), Function.update_self]
      exact hs
    · exact hy.free i hix hiy

/-- Calls under a path of `R` spoil the table, and all others keep it or spoil it. -/
def CallsSpoil (w : World) (R : Path → Prop) (n k : Nat) : Prop :=
  ∀ e t y, dirs_check w k e (.entry e) true t = some y →
    Spoilt R n y ∨ (Kept R e t y ∧ ¬ R (t e))

theorem CallsSpoil.kept {s : Path} (hcalls : CallsSpoil w R n k) (hx : Kept R e t x)
    (h : dirs_check w k x.1 (.entry x.1) true (Function.update x.2 x.1 s) = some y) :
    Spoilt R n y ∨ (Kept R e t y ∧ x.1 < y.1) := by
  rcases hcalls _ _ _ h with hspoilt | ⟨hkept, hrow⟩
  · exact Or.inl hspoilt
  · rw [Function.update_self] at hrow
    exact Or.inr ⟨hx.call hkept hrow, hkept.longer⟩

theorem visit_kept (hcalls : CallsSpoil w R n k) (hx : Kept R e t x)
    (h : visit w k path x d = some y) : Spoilt R n y ∨ Kept R e t y := by
  cases visited h with
  | skip => exact Or.inr hx
  | pass => exact Or.inr (hx.update _)
  | call _ _ _ _ hcall => exact (hcalls.kept hx hcall).imp_right And.left

theorem visit_spoilt (hcalls : CallsSpoil w R n k) (hx : Spoilt R n x)
    (h : visit w k path x d = some y) : Spoilt R n y := by
  cases visited h with
  | skip => exact hx
  | pass => exact hx.update _
  | call _ _ _ _ hcall =>
    rcases hcalls _ _ _ hcall with hspoilt | ⟨hkept, hrow⟩
    · exact hspoilt
    · rw [Function.update_self] at hrow
      exact hx.call hkept hrow

theorem visits_spoilt (hcalls : CallsSpoil w R n k) (hx : Spoilt R n x)
    (h : ds.foldlM (visit w k path) x = some y) : Spoilt R n y := by
  induction ds generalizing x with
  | nil =>
    cases h
    exact hx
  | cons d ds ih =>
    obtain ⟨z, hvisit, hrest⟩ := Option.bind_eq_some_iff.mp h
    exact ih (visit_spoilt hcalls hx hvisit) hrest

theorem visits_kept (hcalls : CallsSpoil w R n k) (hx : Kept R e t x)
    (h : ds.foldlM (visit w k path) x = some y) : Spoilt R n y ∨ Kept R e t y := by
  induction ds generalizing x with
  | nil =>
    cases h
    exact Or.inr hx
  | cons d ds ih =>
    obtain ⟨z, hvisit, hrest⟩ := Option.bind_eq_some_iff.mp h
    rcases visit_kept hcalls hx hvisit with hz | hz
    · exact Or.inl (visits_spoilt hcalls hz hrest)
    · exact ih hz hrest

end

/-! ## The number of rows -/

/-- The scan of `M` has gone well: it began behind `x` rows, and now there are `n`. -/
structure Counted (M : Listing) (x n : Nat) : Prop where
  opened : M.opened
  rows : x + M.dirs.length ≤ n
  extra : M.plain = false → x + M.dirs.length < n
  room : M.trailing → x + M.dirs.length < maxSubdirs

section
variable {M rest sub : Listing} {x z n : Nat} {up known : Bool} {name : Path}

theorem counted_nil (x : Nat) : Counted .nil x x :=
  ⟨rfl, le_refl x, fun h => Bool.noConfusion h, fun h => Bool.noConfusion h⟩

theorem Counted.dots (h : Counted rest x n) : Counted (.dots up true rest) x n :=
  ⟨h.opened, h.rows, h.extra, h.room⟩

theorem Counted.dotsScanned (h : Counted rest z n) (hz : x < z) :
    Counted (.dots up known rest) x n := by
  have hrows := h.rows
  refine ⟨h.opened, ?_, fun _ => ?_, fun htrail => ?_⟩
  · simp only [Listing.dirs]
    omega
  · simp only [Listing.dirs]
    omega
  · have hroom := h.room htrail
    simp only [Listing.dirs]
    omega

/-- Behind the last directory the file needs a row to have its path put together in. -/
theorem room_of_trailing (hx : x < maxSubdirs)
    (hrest : rest.trailing → x + rest.dirs.length < maxSubdirs)
    (h : (Listing.file name known rest).trailing) : x + rest.dirs.length < maxSubdirs := by
  rcases (Bool.or_eq_true _ _).mp h with hnil | htrail
  · rw [List.isEmpty_iff.mp hnil]
    exact hx
  · exact hrest htrail

theorem Counted.file (h : Counted rest x n) (hx : x < maxSubdirs) :
    Counted (.file name false rest) x n :=
  ⟨h.opened, h.rows, h.extra, room_of_trailing hx h.room⟩

theorem Counted.fileScanned (h : Counted rest z n) (hx : x < maxSubdirs) (hz : x < z) :
    Counted (.file name known rest) x n := by
  have hrows := h.rows
  refine ⟨h.opened, ?_, fun _ => ?_, room_of_trailing hx fun htrail => ?_⟩
  · simp only [Listing.dirs]
    omega
  · simp only [Listing.dirs]
    omega
  · have hroom := h.room htrail
    omega

theorem dirs_length (name : Path) (known : Bool) (sub rest : Listing) :
    (Listing.dir name known true sub rest).dirs.length =
      1 + sub.dirs.length + rest.dirs.length := by
  simp only [Listing.dirs, if_true, List.length_cons, List.length_append, List.length_map]
  omega

theorem Counted.dir (hsub : Counted sub (x + 1) z) (hrest : Counted rest z n) :
    Counted (.dir name known true sub rest) x n := by
  have hlen := dirs_length name known sub rest
  have h₁ := hsub.rows
  have h₂ := hrest.rows
  refine ⟨?_, by omega, fun hplain => ?_, fun htrail => ?_⟩
  · simp only [Listing.opened, hsub.opened, hrest.opened, Bool.and_true]
  · rcases Bool.and_eq_false_iff.mp hplain with hplain | hplain
    · have h₃ := hsub.extra hplain
      omega
    · have h₃ := hrest.extra hplain
      omega
  · rcases (Bool.or_eq_true _ _).mp htrail with htrail | htrail
    · obtain ⟨hnil, htrail⟩ := (Bool.and_eq_true _ _).mp htrail
      have h₃ := hsub.room htrail
      rw [List.isEmpty_iff.mp hnil] at hlen
      rw [List.length_nil] at hlen
      omega
    · have h₃ := hrest.room htrail
      omega

end

/-! ## A run over a tree -/

/-- Calls for a directory of a tree count its directories, or spoil the table. -/
def CallsCount (w : World) (loc : Places) (R : Path → Prop) (n k : Nat) : Prop :=
  ∀ e path t y q L, PathArg.Names path e (path.read t) → loc (path.read t) = some q →
    Listing.Proper L → (∀ s, loc s = some q → w.readdir s = some L.entries) → Holds w loc q L →
    dirs_check w k e path true t = some y →
    Spoilt R n y ∨ (Kept R e (Function.update t e (path.read t)) y ∧ Counted L (e + 1) y.1)

section
variable {w : World} {loc : Places} {k e n : Nat} {R : Path → Prop} {path : PathArg}
  {t : Nat → Path} {x y : Nat × (Nat → Path)} {s : Path} {q : List Path}

theorem not_skipped {name : Path} (h : IsEntry name) (known : Bool) :
    skipped (name, if known then .dir else .unknown) = false := by
  obtain ⟨_, hname, hup⟩ := h
  simp only [isName, Bool.and_eq_true, decide_eq_true_eq] at hname
  simp [skipped, hname.2, hup]

theorem first_visited {d : Path × DType} {ds : List (Path × DType)} (hname : path.Names e s)
    (hrow : t e = s) (hx : Kept R e t x) (h : (d :: ds).foldlM (visit w k path) x = some y) :
    ∃ z, Visited w k s x d z ∧ ds.foldlM (visit w k path) z = some y := by
  obtain ⟨z, hvisit, hrest⟩ := Option.bind_eq_some_iff.mp h
  have hv := visited hvisit
  rw [hname x.2 ((hx.same e (le_refl e)).trans hrow)] at hv
  exact ⟨z, hv, hrest⟩

theorem CallsSpoil.goesOn {z : Nat × (Nat → Path)} {ds : List (Path × DType)}
    (hcalls : CallsSpoil w R n k) (hx : Kept R e t x)
    (hcall : dirs_check w k x.1 (.entry x.1) true (Function.update x.2 x.1 s) = some z)
    (hrest : ds.foldlM (visit w k path) z = some y) :
    Spoilt R n y ∨ (Kept R e t z ∧ x.1 < z.1) :=
  (hcalls.kept hx hcall).imp_left fun hz => visits_spoilt hcalls hz hrest

/-- A directory that cannot be opened takes all rows back. -/
theorem spoilt_of_unreadable (hread : w.readdir s = none)
    (h : dirs_check w k e (.entry e) true (Function.update t e s) = some y) : Spoilt R n y := by
  cases k with
  | zero => cases h
  | succ k =>
    rw [dirs_check_entry, hread] at h
    split at h
    · cases h
    · cases h
      exact Or.inr fun i hi => absurd hi (Nat.not_lt_zero i)

theorem visits_counted (hcalls : CallsSpoil w R n k) (hin : CallsCount w loc R n k)
    (hname : path.Names e s) (hs : loc s = some q) (hrow : t e = s) {M : Listing}
    (hprop : M.Proper) (hM : Holds w loc q M) (hx : Kept R e t x)
    (h : M.entries.foldlM (visit w k path) x = some y) :
    Spoilt R n y ∨ (Kept R e t y ∧ Counted M x.1 y.1) := by
  induction M generalizing x with
  | nil =>
    cases h
    exact Or.inr ⟨hx, counted_nil y.1⟩
  | dots up known rest ih =>
    obtain ⟨hstat, hM⟩ := hM
    obtain ⟨z, hvisit, hrest⟩ := first_visited hname hrow hx h
    cases hvisit with
    | skip hskip =>
      cases known with
      | false => simp [skipped] at hskip
      | true => exact (ih hprop hM hx hrest).imp_right fun hy => ⟨hy.1, hy.2.dots⟩
    | pass _ _ hno => exact absurd (hstat s hs) hno
    | call _ _ _ _ hcall =>
      rcases hcalls.goesOn hx hcall hrest with hy | ⟨hz, hlt⟩
      · exact Or.inl hy
      · exact (ih hprop hM hz hrest).imp_right fun hy => ⟨hy.1, hy.2.dotsScanned hlt⟩
  | file name known rest ih =>
    obtain ⟨hstat, hM⟩ := hM
    obtain ⟨z, hvisit, hrest⟩ := first_visited hname hrow hx h
    cases hvisit with
    | skip hskip => cases known <;> simp [skipped] at hskip
    | pass hlt hunknown _ =>
      cases known with
      | false =>
        exact (ih hprop.2.2 hM (hx.update _) hrest).imp_right fun hy => ⟨hy.1, hy.2.file hlt⟩
      | true => cases hunknown
    | call _ hlt _ _ hcall =>
      -- reported as a file: whatever the row leads to, it is one row too many
      rcases hcalls.goesOn hx hcall hrest with hy | ⟨hz, hmore⟩
      · exact Or.inl hy
      · exact (ih hprop.2.2 hM hz hrest).imp_right fun hy => ⟨hy.1, hy.2.fileScanned hlt hmore⟩
  | dir name known opens sub rest _ ih =>
    obtain ⟨hstat, hread, hsub, hM⟩ := hM
    obtain ⟨hentry, _, hpsub, hprest⟩ := hprop
    obtain ⟨z, hvisit, hrest⟩ := first_visited hname hrow hx h
    cases hvisit with
    | skip hskip =>
      rw [not_skipped hentry] at hskip
      cases hskip
    | pass _ _ hno => exact absurd (hstat s hs).1 hno
    | @call s' _ _ hlt _ hpath hcall =>
      have hs' : s' = s ++ slash :: name ++ [slash] := by
        apply hpath
        cases known <;> simp
      have hlead : loc s' = some (q ++ [name]) := by
        rw [hs']
        exact (hstat s hs).2
      cases opens with
      | false =>
        have hz : Spoilt R n z := spoilt_of_unreadable (hread s' hlead) hcall
        exact Or.inl (visits_spoilt hcalls hz hrest)
      | true =>
        have hself : (PathArg.entry x.1).read (Function.update x.2 x.1 s') = s' :=
          Function.update_self ..
        have hcount := hin x.1 (.entry x.1) _ _ (q ++ [name]) sub (names_entry _ _)
          (by rw [hself]; exact hlead) hpsub hread (hsub rfl) hcall
        rcases hcount with hz | ⟨_, hcount⟩
        · exact Or.inl (visits_spoilt hcalls hz hrest)
        · rcases hcalls.goesOn hx hcall hrest with hy | ⟨hz, _⟩
          · exact Or.inl hy
          · exact (ih hprest hM hz hrest).imp_right fun hy => ⟨hy.1, hcount.dir hy.2⟩

theorem callsCount_succ (hcalls : CallsSpoil w R n k) (hin : CallsCount w loc R n k) :
    CallsCount w loc R n (k + 1) := by
  intro e path t y q L hname hs hprop hread hL h
  have hself : path.read (Function.update t e (path.read t)) = path.read t :=
    hname _ (Function.update_self ..)
  rw [dirs_check_succ, hself, hread _ hs] at h
  split at h
  · cases h
  · exact visits_counted hcalls hin hname hs (Function.update_self ..) hprop hL
      (kept_start R e _) h

theorem callsSpoil_succ {root : List Path} {L : Listing} (hprop : L.Proper)
    (hread : ∀ s, loc s = some root → w.readdir s = some L.entries) (hL : Holds w loc root L)
    (hbad : ∀ x m, 0 < x → Counted L x m → n < m)
    (hcalls : CallsSpoil w (fun s => loc s = some root) n k)
    (hcount : CallsCount w loc (fun s => loc s = some root) n (k + 1)) :
    CallsSpoil w (fun s => loc s = some root) n (k + 1) := by
  intro e t y h
  by_cases hroot : loc (t e) = some root
  · -- the whole tree once more, behind what is already there
    left
    rcases hcount e (.entry e) t y root L (names_entry e _) hroot hprop hread hL h with hy | hy
    · exact hy
    · exact Or.inl (hbad _ _ (Nat.succ_pos e) hy.2)
  · rw [← Function.update_eq_self e t, dirs_check_entry, Function.update_eq_self] at h
    split at h
    · cases h
    · cases hdir : w.readdir (t e) with
      | none =>
        rw [hdir] at h
        cases h
        exact Or.inl (Or.inr fun i hi => absurd hi (Nat.not_lt_zero i))
      | some dents =>
        rw [hdir] at h
        exact (visits_kept hcalls (kept_start _ e t) h).imp_right fun hy => ⟨hy, hroot⟩

/-- If no call for the top directory can go well, every call under its path spoils the table. -/
theorem calls_spoil {path : Path} {root : List Path} {L : Listing} (hr : Rooted w loc path root L)
    (hbad : ∀ x m, 0 < x → Counted L x m → n < m) (k : Nat) :
    CallsSpoil w (fun s => loc s = some root) n k ∧
      CallsCount w loc (fun s => loc s = some root) n k := by
  induction k with
  | zero =>
    refine ⟨?_, ?_⟩
    · intro e t y h
      cases h
    · intro e path t y q L _ _ _ _ _ h
      cases h
  | succ k ih =>
    have hcount := callsCount_succ ih.1 ih.2
    exact ⟨callsSpoil_succ hr.proper hr.reads hr.holds hbad ih.1 hcount, hcount⟩

theorem scan_spoilt {path : Path} {root : List Path} {L : Listing} (hr : Rooted w loc path root L)
    (hbad : ∀ x m, 0 < x → Counted L x m → n < m)
    (h : dirs_check w k 0 (.buf path) true t = some y) :
    Spoilt (fun s => loc s = some root) n y := by
  rcases (calls_spoil hr hbad k).2 0 (.buf path) t y root L (names_buf path 0) hr.leads hr.proper
    hr.reads hr.holds h with hy | ⟨_, hy⟩
  · exact hy
  · exact Or.inl (hbad 1 _ Nat.one_pos hy)

end

/-! ## A run in which all goes well -/

/-- The table has a row for every directory, and one more if a file is looked at behind the last. -/
structure Room (M : Listing) (x : Nat) : Prop where
  rows : x + M.dirs.length ≤ maxSubdirs
  behind : M.trailing → x + M.dirs.length < maxSubdirs

section
variable {rest sub : Listing} {x : Nat} {known : Bool} {name : Path}

theorem Room.of_file (h : Room (.file name known rest) x) : x < maxSubdirs ∧ Room rest x := by
  have hrows : x + rest.dirs.length ≤ maxSubdirs := h.rows
  refine ⟨?_, hrows, fun htrail => h.behind ((Bool.or_eq_true _ _).mpr (Or.inr htrail))⟩
  cases hnil : rest.dirs with
  | nil =>
    have htrail : (Listing.file name known rest).trailing := by
      simp only [Listing.trailing, hnil, List.isEmpty_nil, Bool.true_or]
    exact (Nat.le_add_right x _).trans_lt (h.behind htrail)
  | cons d ds =>
    rw [hnil, List.length_cons] at hrows
    omega

theorem Room.of_dir_sub (h : Room (.dir name known true sub rest) x) : Room sub (x + 1) := by
  have hrows := h.rows
  rw [dirs_length] at hrows
  refine ⟨by omega, fun htrail => ?_⟩
  cases hnil : rest.dirs with
  | nil =>
    have hall : (Listing.dir name known true sub rest).trailing := by
      simp only [Listing.trailing, hnil, htrail, List.isEmpty_nil, Bool.and_true, Bool.true_or]
    have hbehind := h.behind hall
    rw [dirs_length] at hbehind
    omega
  | cons d ds =>
    rw [hnil, List.length_cons] at hrows
    omega

theorem Room.of_dir_rest (h : Room (.dir name known true sub rest) x) :
    x < maxSubdirs ∧ Room rest (x + 1 + sub.dirs.length) := by
  have hrows := h.rows
  rw [dirs_length] at hrows
  refine ⟨by omega, by omega, fun htrail => ?_⟩
  have hbehind := h.behind ((Bool.or_eq_true _ _).mpr (Or.inr htrail))
  rw [dirs_length] at hbehind
  omega

end

/-- The paths of the directories below `s`, as the rows spell them. -/
def listed (s : Path) : Listing → List Path
  | .nil => []
  | .dots _ _ rest => listed s rest
  | .file _ _ rest => listed s rest
  | .dir name _ _ sub rest =>
    (s ++ slash :: name ++ [slash]) :: (listed (s ++ slash :: name ++ [slash]) sub ++ listed s rest)

/-- `u` reports `l` from row `x` on. -/
def Reports (u : Nat → Path) (x : Nat) (l : List Path) : Prop :=
  (List.range' x l.length).map u = l

section
variable {w : World} {loc : Places} {k e : Nat} {path : PathArg} {t u v : Nat → Path}
  {x : Nat × (Nat → Path)} {s : Path} {q : List Path} {l m : List Path} {M : Listing}

theorem Reports.congr {i : Nat} (h : Reports u i l)
    (huv : ∀ j, i ≤ j → j < i + l.length → v j = u j) : Reports v i l := by
  unfold Reports
  rw [← h, List.length_map, List.length_range']
  refine List.map_congr_left fun j hj => ?_
  obtain ⟨hle, hlt⟩ := List.mem_range'_1.mp hj
  exact huv j hle hlt

theorem Reports.cons {i : Nat} {p : Path} (hp : u i = p) (h : Reports u (i + 1) l) :
    Reports u i (p :: l) := by
  unfold Reports at h ⊢
  rw [List.length_cons, List.range'_succ, List.map_cons, h, hp]

theorem Reports.append {i : Nat} (hl : Reports u i l) (hm : Reports u (i + l.length) m) :
    Reports u i (l ++ m) := by
  unfold Reports at hl hm ⊢
  rw [List.length_append, ← List.range'_append_1, List.map_append, hl, hm]

theorem listed_length (s : Path) (hopen : M.opened) : (listed s M).length = M.dirs.length := by
  induction M generalizing s with
  | nil => rfl
  | dots up known rest ih => exact ih s hopen
  | file name known rest ih => exact ih s hopen
  | dir name known opens sub rest ihs ihr =>
    obtain ⟨rfl, hosub, horest⟩ := Listing.dir_opened hopen
    simp only [listed, Listing.dirs, if_true, List.length_cons, List.length_append, List.length_map,
      ihs _ hosub, ihr s horest]

theorem loc_listed (hs : loc s = some q) (hM : Holds w loc q M) (hopen : M.opened) :
    (listed s M).map loc = M.dirs.map fun d => some (q ++ d) := by
  induction M generalizing s q with
  | nil => rfl
  | dots up known rest ih => exact ih hs hM.2 hopen
  | file name known rest ih => exact ih hs hM.2 hopen
  | dir name known opens sub rest ihs ihr =>
    obtain ⟨hstat, _, hsub, hM⟩ := hM
    obtain ⟨rfl, hosub, horest⟩ := Listing.dir_opened hopen
    have hlead := (hstat s hs).2
    have hinner : (sub.dirs.map fun d => some (q ++ [name] ++ d)) =
        (sub.dirs.map (List.cons name)).map fun d => some (q ++ d) := by
      rw [List.map_map]
      refine List.map_congr_left fun d _ => ?_
      rw [List.append_assoc]
      rfl
    rw [listed, Listing.dirs, if_pos rfl, List.map_cons, List.map_append, hlead,
      ihs hlead (hsub rfl) hosub, ihr hs hM horest, List.map_cons, List.map_append, hinner]

theorem visit_dots (w : World) (k : Nat) (path : PathArg) (x : Nat × (Nat → Path)) (up : Bool) :
    visit w k path x (dotsName up, .dir) = some x := by
  unfold visit
  rw [if_pos]
  cases up <;> rfl

theorem visit_file {name : Path} (hlt : x.1 < maxSubdirs) (hread : path.read x.2 = s)
    (hstat : w.stat (s ++ slash :: name) = some false) : visit w k path x (name, .unknown) =
      some (x.1, Function.update x.2 x.1 (s ++ slash :: name)) := by
  unfold visit
  rw [if_neg (by simp [skipped]), if_neg (not_le.mpr hlt)]
  simp [subdir, hread, hstat]

theorem visit_dir {name : Path} (known : Bool) (hentry : IsEntry name) (hlt : x.1 < maxSubdirs)
    (hread : path.read x.2 = s) (hstat : w.stat (s ++ slash :: name) = some true) :
    visit w k path x (name, if known then .dir else .unknown) =
      dirs_check w k x.1 (.entry x.1) true
        (Function.update x.2 x.1 (s ++ slash :: name ++ [slash])) := by
  unfold visit
  rw [not_skipped hentry, if_neg Bool.false_ne_true, if_neg (not_le.mpr hlt)]
  cases known <;>
    simp only [subdir, hread, hstat, decide_true, if_true, Bool.false_eq_true, if_false,
      Function.update_self, Function.update_idem]

theorem visits_listed (hname : path.Names e s) (hs : loc s = some q) (hprop : M.Proper)
    (hM : Holds w loc q M) (hplain : M.plain) (hopen : M.opened) (hdepth : M.depth ≤ k)
    (hroom : Room M x.1) (hrow : x.2 e = s) (hlt : e < x.1) :
    ∃ u, M.entries.foldlM (visit w k path) x = some (x.1 + M.dirs.length, u) ∧
      (∀ i < x.1, u i = x.2 i) ∧ Reports u x.1 (listed s M) := by
  induction M generalizing k path e s q x with
  | nil => exact ⟨x.2, rfl, fun _ _ => rfl, rfl⟩
  | dots up known rest ih =>
    obtain ⟨hknown, hplain⟩ := (Bool.and_eq_true _ _).mp hplain
    rw [Listing.entries, List.foldlM_cons, hknown, if_pos rfl, visit_dots]
    exact ih hname hs hprop hM.2 hplain hopen hdepth ⟨hroom.rows, hroom.behind⟩ hrow hlt
  | file name known rest ih =>
    obtain ⟨hknown, hplain⟩ := (Bool.and_eq_true _ _).mp hplain
    rw [Bool.not_eq_true'] at hknown
    obtain ⟨hfree, hroom⟩ := hroom.of_file
    have hread := hname x.2 hrow
    rw [Listing.entries, List.foldlM_cons, hknown, if_neg Bool.false_ne_true,
      visit_file hfree hread (hM.1 s hs)]
    obtain ⟨u, hrun, hsame, hrep⟩ := @ih k e path
      (x.1, Function.update x.2 x.1 (s ++ slash :: name)) s q hname hs hprop.2.2 hM.2 hplain hopen
      hdepth hroom ((update_below hlt _).trans hrow) hlt
    exact ⟨u, hrun, fun i hi => (hsame i hi).trans (update_below hi _), hrep⟩
  | dir name known opens sub rest ihs ihr =>
    obtain ⟨hstat, hread, hsub, hM⟩ := hM
    obtain ⟨hentry, _, hpsub, hprest⟩ := hprop
    obtain ⟨rfl, hosub, horest⟩ := Listing.dir_opened hopen
    obtain ⟨hplsub, hplrest⟩ := (Bool.and_eq_true _ _).mp hplain
    have hsubroom := hroom.of_dir_sub
    obtain ⟨hfree, hrestroom⟩ := hroom.of_dir_rest
    obtain ⟨hdsub, hdrest⟩ : sub.depth + 1 ≤ k ∧ rest.depth ≤ k := max_le_iff.mp hdepth
    obtain ⟨k, rfl⟩ : ∃ k', k = k' + 1 := ⟨k - 1, by omega⟩
    have hlead : loc (s ++ slash :: name ++ [slash]) = some (q ++ [name]) :=
      (hstat s hs).2
    generalize hp : s ++ slash :: name ++ [slash] = p at hlead
    obtain ⟨u₁, hrun₁, hsame₁, hrep₁⟩ := @ihs k x.1 (.entry x.1)
      (x.1 + 1, Function.update x.2 x.1 p) p (q ++ [name]) (names_entry x.1 p) hlead hpsub
      (hsub rfl) hplsub hosub (by omega) hsubroom (Function.update_self ..) (Nat.lt_succ_self x.1)
    have hbelow : ∀ i < x.1, u₁ i = x.2 i := fun i hi =>
      (hsame₁ i (Nat.lt_succ_of_lt hi)).trans (update_below hi p)
    obtain ⟨u₂, hrun₂, hsame₂, hrep₂⟩ := @ihr (k + 1) e path
      (x.1 + 1 + sub.dirs.length, u₁) s q hname hs hprest hM hplrest horest hdrest
      hrestroom ((hbelow e hlt).trans hrow) (by simp only; omega)
    have hcall : dirs_check w (k + 1) x.1 (.entry x.1) true (Function.update x.2 x.1 p) =
        some (x.1 + 1 + sub.dirs.length, u₁) := by
      rw [dirs_check_entry, if_neg (not_le.mpr hfree), hread p hlead]
      exact hrun₁
    refine ⟨u₂, ?_, ?_, ?_⟩
    · rw [Listing.entries, List.foldlM_cons,
        visit_dir known hentry hfree (hname x.2 hrow) (hstat s hs).1, hp, hcall, dirs_length,
        ← Nat.add_assoc, ← Nat.add_assoc]
      exact hrun₂
    · intro i hi
      exact (hsame₂ i (by simp only; omega)).trans (hbelow i hi)
    · have hlist := listed_length p hosub
      rw [listed, hp]
      refine Reports.cons ?_ (Reports.append (hrep₁.congr ?_) ?_)
      · refine (hsame₂ x.1 (by simp only; omega)).trans ?_
        exact (hsame₁ x.1 (Nat.lt_succ_self x.1)).trans (Function.update_self ..)
      · intro j _ hj
        rw [hlist] at hj
        exact hsame₂ j hj
      · rw [hlist]
        exact hrep₂

variable {root : List Path} {L : Listing} {p : Path}

/-- The rows are the directories of the tree in the order of the tree, if all can be opened, none of
the entries is misread, and there is room. -/
theorem scan_listed (hr : Rooted w loc p root L) (hplain : L.plain) (hopen : L.opened)
    (hroom : Room L 1) (hdepth : L.depth ≤ k) (t : Nat → Path) :
    ∃ r, dirs_check w (k + 1) 0 (.buf p) true t = some r ∧ found r = p :: listed p L := by
  obtain ⟨u, hrun, hsame, hrep⟩ := @visits_listed w loc k 0 (.buf p)
    (1, Function.update t 0 p) p root L (names_buf p 0) hr.leads hr.proper hr.holds hplain hopen hdepth hroom
    (Function.update_self 0 p t) Nat.one_pos
  refine ⟨(1 + L.dirs.length, u), ?_, ?_⟩
  · rw [dirs_check_succ, if_neg (by decide)]
    simp only [PathArg.read, hr.reads p hr.leads, Option.elim_some]
    exact hrun
  · have hfirst : u 0 = p := (hsame 0 Nat.one_pos).trans (Function.update_self 0 p t)
    have hall : Reports u 0 (p :: listed p L) := Reports.cons hfirst hrep
    unfold Reports at hall
    rw [List.length_cons, listed_length p hopen, Nat.add_comm] at hall
    rw [found, List.range_eq_range']
    exact hall

theorem loc_found (hr : Rooted w loc p root L) (hopen : L.opened) {r : Nat × (Nat → Path)}
    (h : found r = p :: listed p L) : (found r).map loc = (places root L).map some := by
  rw [h, List.map_cons, hr.leads, loc_listed hr.leads hr.holds hopen, places, List.map_cons,
    List.map_map]
  rfl

/-! ## Exactness -/

/-- The rows lead to the directories of the tree and nowhere else, to each once, and a parent comes
before its children. -/
structure IsScan (loc : Places) (root : List Path) (L : Listing) (r : Nat × (Nat → Path)) :
    Prop where
  nodup : ((found r).map loc).Nodup
  mem : ∀ q, q ∈ (found r).map loc ↔ ∃ d ∈ places root L, some d = q
  order : ((found r).map loc).Pairwise fun a b => ∀ d c, b = some d → a ≠ some (d ++ [c])

/-- `dirs_check(0, path, 1, flag)` returns and has reported exactly the directories of the tree. -/
def Exact (w : World) (loc : Places) (path : Path) (root : List Path) (L : Listing)
    (t : Nat → Path) : Prop :=
  ∃ k r, dirs_check w k 0 (.buf path) true t = some r ∧ IsScan loc root L r

theorem isScan_places (hprop : L.Proper) {r : Nat × (Nat → Path)}
    (h : (found r).map loc = (places root L).map some) : IsScan loc root L r := by
  refine ⟨?_, ?_, ?_⟩
  · rw [h]
    exact (places_nodup hprop root).map (Option.some_injective _)
  · intro q
    rw [h]
    exact List.mem_map
  · rw [h, List.pairwise_map]
    refine (places_pairwise hprop root).imp ?_
    intro a b hab d c hb ha
    apply hab
    rw [Option.some.inj hb, Option.some.inj ha]
    exact List.prefix_append d [c]

theorem IsScan.length_eq (hprop : L.Proper) {r : Nat × (Nat → Path)} (h : IsScan loc root L r) :
    r.1 = L.dirs.length + 1 := by
  have hperm : ((found r).map loc).Perm ((places root L).map some) := by
    refine (List.perm_ext_iff_of_nodup h.nodup
      ((places_nodup hprop root).map (Option.some_injective _))).mpr fun q => ?_
    rw [h.mem, List.mem_map]
  have hlen := hperm.length_eq
  simpa [found, places] using hlen

theorem root_found {r : Nat × (Nat → Path)} (h : some root ∈ (found r).map loc) :
    ∃ i < r.1, loc (r.2 i) = some root := by
  obtain ⟨s, hs, hlead⟩ := List.mem_map.mp h
  obtain ⟨i, hi, rfl⟩ := List.mem_map.mp hs
  exact ⟨i, List.mem_range.mp hi, hlead⟩

theorem IsScan.not_spoilt (hprop : L.Proper) {r : Nat × (Nat → Path)} (h : IsScan loc root L r) :
    ¬ Spoilt (fun s => loc s = some root) (L.dirs.length + 1) r := by
  rintro (hlong | hfree)
  · rw [h.length_eq hprop] at hlong
    exact lt_irrefl _ hlong
  · obtain ⟨i, hi, hlead⟩ := root_found ((h.mem _).mpr ⟨root, List.mem_cons_self, rfl⟩)
    exact hfree i hi hlead

theorem exact_of_plain (hr : Rooted w loc p root L) (hopen : L.opened) (hplain : L.plain)
    (hroom : Room L 1) (t : Nat → Path) : Exact w loc p root L t := by
  obtain ⟨r, hrun, hfound⟩ := scan_listed hr hplain hopen hroom (le_refl _) t
  exact ⟨_, r, hrun, isScan_places hr.proper (loc_found hr hopen hfound)⟩

theorem plain_of_exact (hr : Rooted w loc p root L) (h : Exact w loc p root L t) : L.plain := by
  obtain ⟨k, r, hrun, hscan⟩ := h
  by_contra hplain
  rw [Bool.not_eq_true] at hplain
  refine hscan.not_spoilt hr.proper (scan_spoilt hr ?_ hrun)
  intro x m hx hcount
  have hextra := hcount.extra hplain
  omega

theorem room_of_exact (hr : Rooted w loc p root L) (h : Exact w loc p root L t)
    (htrail : L.trailing) : L.dirs.length + 1 < maxSubdirs := by
  obtain ⟨k, r, hrun, hscan⟩ := h
  by_contra hfull
  refine hscan.not_spoilt hr.proper (scan_spoilt hr ?_ hrun)
  intro x m hx hcount
  have hroom := hcount.room htrail
  omega

/-- The scan is exact if and only if `.` and `..` are reported as directories, all files with an
unknown type, and no file is left to be looked at when the table is full. -/
theorem scan_exact_iff (hr : Rooted w loc p root L) (hopen : L.opened)
    (hdirs : L.dirs.length ≤ maxSubdirs - 1) (t : Nat → Path) : Exact w loc p root L t ↔
      L.plain = true ∧ (L.dirs.length < maxSubdirs - 1 ∨ L.trailing = false) := by
  have hpos : 0 < maxSubdirs := by decide
  constructor
  · intro h
    refine ⟨plain_of_exact hr h, ?_⟩
    cases htrail : L.trailing with
    | false => exact Or.inr rfl
    | true =>
      have hroom := room_of_exact hr h htrail
      exact Or.inl (by omega)
  · rintro ⟨hplain, hroom⟩
    refine exact_of_plain hr hopen hplain ⟨by omega, fun htrail => ?_⟩ t
    rcases hroom with hroom | hroom
    · omega
    · rw [hroom] at htrail
      cases htrail

/-- The files `f` and `d/g` and the directories `d` and `d/e`. -/
def twoLevels : Listing :=
  .dots false true (.dots true true (.file [102] false
    (.dir [100] true true (.dots false true (.dots true true
      (.file [103] false (.dir [101] false true .nil .nil)))) .nil)))

theorem twoLevels_proper : twoLevels.Proper :=
  ⟨by decide, by decide, by decide, List.not_mem_nil,
    ⟨by decide, by decide, by decide, List.not_mem_nil, trivial, trivial⟩, trivial⟩

theorem scan_exact_iff_twoLevels : twoLevels.dirs = [[[100]], [[100], [101]]] ∧
    Exact (treeWorld [[47], [116]] twoLevels) leads [47, 116] [[47], [116]] twoLevels
      (fun _ => []) :=
  ⟨rfl, (scan_exact_iff (rooted_treeWorld (by decide) twoLevels_proper) rfl (by decide) _).mpr
    ⟨rfl, .inl (by decide)⟩⟩

/-- The file `f`, which is reported as a file. -/
def oneFile : Listing := .dots false true (.dots true true (.file [102] true .nil))

/-- The scan of `/t` with the file `f` scans the file and loses the directory. -/
theorem scan_exact_fails : Rooted (treeWorld [[47], [116]] oneFile) leads [47, 116] [[47], [116]]
      oneFile ∧ oneFile.opened ∧ oneFile.dirs.length ≤ maxSubdirs - 1 ∧
    (dirs_check (treeWorld [[47], [116]] oneFile) 2 0 (.buf [47, 116]) true fun _ => []).map found =
      some [] ∧
    ¬ Exact (treeWorld [[47], [116]] oneFile) leads [47, 116] [[47], [116]] oneFile fun _ => [] := by
  have hr : Rooted (treeWorld [[47], [116]] oneFile) leads [47, 116] [[47], [116]] oneFile :=
    rooted_treeWorld (by decide) ⟨by decide, List.not_mem_nil, trivial⟩
  refine ⟨hr, rfl, by decide, by decide, ?_⟩
  intro hexact
  have hplain := plain_of_exact hr hexact
  cases hplain

/-! ## Directories that cannot be opened -/

/-- `dirs_check(0, path, 1, flag)` returns, and every directory that can be reached from `path`
through directories that can be opened is reported. -/
def Complete (w : World) (loc : Places) (path : Path) (root : List Path) (L : Listing)
    (t : Nat → Path) : Prop :=
  ∃ k r, dirs_check w k 0 (.buf path) true t = some r ∧
    ∀ d ∈ places root L, some d ∈ (found r).map loc

theorem visits_le {ds : List (Path × DType)} {y : Nat × (Nat → Path)}
    (hcall : ∀ e t y, dirs_check w k e (.entry e) true t = some y → y.1 ≤ maxSubdirs)
    (hx : x.1 ≤ maxSubdirs) (h : ds.foldlM (visit w k path) x = some y) : y.1 ≤ maxSubdirs := by
  induction ds generalizing x with
  | nil =>
    cases h
    exact hx
  | cons d ds ih =>
    obtain ⟨z, hvisit, hrest⟩ := Option.bind_eq_some_iff.mp h
    refine ih ?_ hrest
    cases visited hvisit with
    | skip => exact hx
    | pass => exact hx
    | call _ _ _ _ hz => exact hcall _ _ _ hz

theorem dirs_check_le {y : Nat × (Nat → Path)} (h : dirs_check w k e path true t = some y) :
    y.1 ≤ maxSubdirs := by
  induction k generalizing e path t y with
  | zero => cases h
  | succ k ih =>
    rw [dirs_check_succ] at h
    split at h
    · cases h
    · rename_i hlt
      cases hdir : w.readdir (path.read (Function.update t e (path.read t))) with
      | none =>
        rw [hdir] at h
        cases h
        exact Nat.zero_le _
      | some dents =>
        rw [hdir] at h
        exact visits_le (fun e t y hy => ih hy) (by simp only; omega) h

theorem opened_of_complete (hr : Rooted w loc p root L) (h : Complete w loc p root L t) :
    L.opened := by
  obtain ⟨k, r, hrun, hall⟩ := h
  by_contra hopen
  have hspoilt : Spoilt (fun s => loc s = some root) r.1 r :=
    scan_spoilt hr (fun x m _ hcount => absurd hcount.opened hopen) hrun
  rcases hspoilt with hlong | hfree
  · exact lt_irrefl _ hlong
  · obtain ⟨i, hi, hlead⟩ := root_found (hall root List.mem_cons_self)
    exact hfree i hi hlead

theorem room_of_complete (hprop : L.Proper) (h : Complete w loc p root L t) :
    L.dirs.length + 1 ≤ maxSubdirs := by
  obtain ⟨k, r, hrun, hall⟩ := h
  have hsub : (places root L).map some ⊆ (found r).map loc := by
    intro q hq
    obtain ⟨d, hd, rfl⟩ := List.mem_map.mp hq
    exact hall d hd
  have hle := (((places_nodup hprop root).map (Option.some_injective _)).subperm hsub).length_le
  have hrows := dirs_check_le hrun
  simp only [places, found, List.length_map, List.length_cons, List.length_range] at hle
  omega

/-- All are reported if and only if all can be opened, and the table has a row for each. -/
theorem scan_complete_iff (hr : Rooted w loc p root L) (honly : L.dirsOnly) (t : Nat → Path) :
    Complete w loc p root L t ↔ L.opened = true ∧ L.dirs.length + 1 ≤ maxSubdirs := by
  constructor
  · intro h
    exact ⟨opened_of_complete hr h, room_of_complete hr.proper h⟩
  · rintro ⟨hopen, hroom⟩
    have hroom : Room L 1 := by
      refine ⟨by omega, fun htrail => ?_⟩
      rw [Listing.trailing_of_dirsOnly honly] at htrail
      cases htrail
    obtain ⟨r, hrun, hfound⟩ :=
      scan_listed hr (Listing.plain_of_dirsOnly honly) hopen hroom (le_refl _) t
    refine ⟨_, r, hrun, ?_⟩
    intro d hd
    rw [loc_found hr hopen hfound]
    exact List.mem_map_of_mem hd

/-- The directories `d`, `d/e` and `h`. -/
def threeDirs : Listing :=
  .dots false true (.dots true true (.dir [100] true true (.dots false true (.dots true true
    (.dir [101] true true .nil .nil))) (.dir [104] true true .nil .nil)))

theorem threeDirs_proper : threeDirs.Proper :=
  ⟨by decide, by decide, ⟨by decide, List.not_mem_nil, trivial, trivial⟩,
    by decide, List.not_mem_nil, trivial, trivial⟩

theorem scan_complete_iff_threeDirs : threeDirs.dirs = [[[100]], [[100], [101]], [[104]]] ∧
    Complete (treeWorld [[47], [116]] threeDirs) leads [47, 116] [[47], [116]] threeDirs
      (fun _ => []) :=
  ⟨rfl, (scan_complete_iff (rooted_treeWorld (by decide) threeDirs_proper) rfl _).mpr
    ⟨rfl, by decide⟩⟩

/-- The directory `d`, which cannot be opened. -/
def closedDir : Listing :=
  .dots false true (.dots true true (.dir [100] true false .nil .nil))

/-- The scan of `/t` with the directory `d` forgets `/t` and `/t/d`. -/
theorem scan_complete_fails : Rooted (treeWorld [[47], [116]] closedDir) leads [47, 116]
      [[47], [116]] closedDir ∧ closedDir.dirsOnly ∧
    (dirs_check (treeWorld [[47], [116]] closedDir) 2 0 (.buf [47, 116]) true fun _ => []).map
      found = some [] ∧
    ¬ Complete (treeWorld [[47], [116]] closedDir) leads [47, 116] [[47], [116]] closedDir
      fun _ => [] := by
  have hr : Rooted (treeWorld [[47], [116]] closedDir) leads [47, 116] [[47], [116]] closedDir :=
    rooted_treeWorld (by decide) ⟨by decide, List.not_mem_nil, trivial, trivial⟩
  refine ⟨hr, rfl, by decide, ?_⟩
  intro hcomplete
  have hopen := opened_of_complete hr hcomplete
  cases hopen

/-! ## The caller -/

/-- After an event for a directory whose tree is reported the program enters all of it. -/
theorem dirEvent_listed (hr : Rooted w loc p root L) (hplain : L.plain) (hopen : L.opened)
    (hroom : Room L 1) (wd : Int) (a : Notify) : ∃ u, dirEvent true w wd p a =
      enterAll w p (p :: listed p L) { leave wd a with dirent := u } := by
  have hdepth : L.depth ≤ pathMax - 1 := by
    have hle := Listing.depth_le hopen
    have hrows := hroom.rows
    unfold maxSubdirs at hrows
    unfold pathMax
    omega
  obtain ⟨r, hrun, hfound⟩ := scan_listed hr hplain hopen hroom hdepth a.dirent
  refine ⟨r.2, ?_⟩
  unfold dirEvent
  rw [show pathMax = pathMax - 1 + 1 from rfl, hrun, Option.elim_some, hfound]

end

end JitDt.Inotifylib
