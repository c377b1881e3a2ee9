import JitDt.Misclib.HistoryLate

/-!
# Indices of the history array

`histinit` raises a count that is too small and takes a large one as it is, while the
array has `maxHistory` entries. Up to that size the pointers of every run stay below
`nhist`. Above it the first late file starts its search behind the array.
-/

namespace JitDt.Misclib

set_option autoImplicit false

open Machine

/-- A file has a type of the table, and a thread resumes only when it waits. -/
def Callable (r : Ring) : RingOp → Prop
  | .put _ _ tent => 0 ≤ tent ∧ tent < fnameMax
  | .getResume => r.cond.resume.isSome
  | .waitResume => r.cond2.resume.isSome
  | _ => True

/-- No call of a run from `histinit nh` uses an index outside `history`. -/
def IndicesInside (nh : Int) : Prop :=
  ∀ ops r op, exec ringStep (histinit nh .static) ops = some r →
    Along ringStep Callable (histinit nh .static) ops → Callable r op → (ringStep r op).isSome

theorem histinit_nhist_le_iff {nh : Int} :
    (histinit nh .static).nhist ≤ maxHistory ↔ nh ≤ maxHistory := by
  change (if nh ≤ (keepFileCount + 1 : Nat) then keepFileCount + 2 else nh.toNat) ≤ _ ↔ _
  unfold keepFileCount maxHistory
  split <;> omega

theorem histget_defined {r : Ring} (h : Fits r) : (histget r).isSome := by
  have hc : r.conshistp < maxHistory := h.cons_lt.trans_le h.small
  unfold histget Ring.entry
  rw [if_pos hc]
  split <;> rfl

/-- One call on a ring that fits its array. -/
theorem ringStep_defined {r : Ring} {op : RingOp} (h : Fits r) (hop : Callable r op) :
    (ringStep r op).isSome := by
  cases op with
  | put path dt tent =>
    obtain ⟨r', hput⟩ := histput_total h path dt hop.1 hop.2
    exact Option.isSome_iff_exists.mpr ⟨r', hput⟩
  | get =>
    simp only [ringStep, Option.isSome_map]
    exact histget_defined h
  | getResume =>
    obtain ⟨c, hc⟩ := Option.isSome_iff_exists.mp hop
    have hfits : Fits { r with waithist := r.waithist - 1, cond := c } :=
      ⟨h.small, h.prod_lt, h.cons_lt⟩
    simp only [ringStep, Option.isSome_map, histgetResume, hc, Option.bind_eq_bind,
      Option.bind_some]
    exact histget_defined hfits
  | remove =>
    have hrm : histremove r = some r.removed := histremove_total h
    simp only [ringStep, hrm, Option.isSome_some]
  | wait => rfl
  | waitResume =>
    obtain ⟨c, hc⟩ := Option.isSome_iff_exists.mp hop
    simp only [ringStep, histwaitResume, hc, Option.bind_eq_bind, Option.bind_some,
      Option.isSome_some]

theorem fits_of_exec {nh : Int} (hnh : nh ≤ maxHistory) {ops : List RingOp} {r : Ring}
    (h : exec ringStep (histinit nh .static) ops = some r) : Fits r := by
  obtain ⟨hsize, P, C, hd⟩ := exec_dated h
  apply hd.toAt.fits
  rw [hsize]
  exact histinit_nhist_le_iff.mpr hnh

/-- The ring after the first file, the only one that was put. -/
theorem first_put {nh : Int} (path : Path) {dt : Int64} (hdt : ull dt ≠ 0) :
    ∃ r, histput path dt 0 (histinit nh .static) = some r ∧ r.nhist = (histinit nh .static).nhist ∧
      r.prodhistp = 0 ∧ r.date 0 = ull dt := by
  have hat := at_histinit nh
  have hnum : ¬ (histinit nh .static).Full := by
    have hsize := hat.size
    have hz : (histinit nh .static).numhist = 0 := rfl
    unfold Ring.Full
    rw [hz]
    unfold keepFileCount at *
    omega
  have hnext : nextEntry (histinit nh .static) = 0 := rfl
  have hroomy : (histinit nh .static).roomy = (histinit nh .static).advanced := if_neg hnum
  have hnew : histputNew path (ull dt) 0 (histinit nh .static) =
      some ((histinit nh .static).opened (ull dt) 0 path) := by
    have hforce : forceRoom (histinit nh .static).advanced = some (histinit nh .static).advanced :=
      if_neg hnum
    change (forceRoom (histinit nh .static).advanced).bind _ = _
    rw [hforce]
    simp [Ring.setDate, Ring.setFname, Ring.opened, hroomy, hnext, Ring.advanced, maxHistory,
      Ring.withEntry, fnameMax]
  refine ⟨((histinit nh .static).opened (ull dt) 0 path).signal, ?_, ?_, ?_, ?_⟩
  · have hcur : (histinit nh .static).entry (histinit nh .static).prodhistp = some .zero := rfl
    unfold histput
    rw [if_neg (by decide), hcur]
    simp only [Option.bind_eq_bind, Option.bind_some, HistData.zero]
    rw [if_neg hdt, if_pos (by omega)]
    change (histputNew path (ull dt) 0 (histinit nh .static)).bind _ = _
    rw [hnew]
    rfl
  · exact opened_nhist _ (ull dt) 0 path
  · exact opened_prodhistp _ (ull dt) 0 path
  · exact date_opened_self _ (ull dt) 0 path

/-- A late file makes the producer of a large ring look behind the array. -/
theorem histput_late_undefined {r : Ring} (hn : maxHistory < r.nhist) (hp : r.prodhistp = 0)
    (path : Path) {dt : Int64} (hlate : ull dt < r.date 0) : histput path dt 0 r = none := by
  have hcur : r.entry 0 = some (r.history 0) := rfl
  have hlate' : ull dt < (r.history 0).date := hlate
  have hstart : r.entry (rewindPointer r.nhist 0) = none := by
    apply if_neg
    change ¬ r.nhist - 1 < maxHistory
    omega
  obtain ⟨k, hk⟩ : ∃ k, r.nhist - 1 = k + 1 := ⟨r.nhist - 2, by unfold maxHistory at hn; omega⟩
  unfold histput
  rw [if_neg (by decide), hp, hcur]
  simp only [Option.bind_eq_bind, Option.bind_some]
  rw [if_neg (by omega), if_neg (by omega), hk]
  simp only [histsearch, hstart, Option.bind_eq_bind, Option.bind_none]

theorem run_first {nh tent : Int} {path : Path} {dt : Int64} {r : Ring}
    (hput : histput path dt tent (histinit nh .static) = some r)
    (htent : 0 ≤ tent ∧ tent < fnameMax) :
    exec ringStep (histinit nh .static) [.put path dt tent] = some r ∧
      Along ringStep Callable (histinit nh .static) [.put path dt tent] := by
  have hstep : ringStep (histinit nh .static) (.put path dt tent) = some r := hput
  exact ⟨exec_cons_iff.mpr ⟨r, hstep, rfl⟩, (along_cons_iff hstep).mpr ⟨htent, trivial⟩⟩

theorem indicesInside_iff (nh : Int) : IndicesInside nh ↔ nh ≤ maxHistory := by
  constructor
  · intro hall
    by_contra hgt
    have hlarge : maxHistory < (histinit nh .static).nhist :=
      not_le.mp fun hle => hgt (histinit_nhist_le_iff.mp hle)
    obtain ⟨r, hput, hn, hp, hd⟩ := @first_put nh ⟨[97], by decide⟩ 5 (by decide)
    obtain ⟨hrun, hcall⟩ := run_first hput (by decide)
    have hlate := hall _ _ (.put ⟨[98], by decide⟩ 3 0) hrun hcall ⟨by decide, by decide⟩
    have hnone : ringStep r (.put ⟨[98], by decide⟩ 3 0) = none :=
      histput_late_undefined (by omega) hp _ (by rw [hd]; decide)
    rw [hnone] at hlate
    cases hlate
  · intro hnh ops r op hrun _ hop
    exact ringStep_defined (fits_of_exec hnh hrun) hop

/-- `-h 21` lets the search of a late file read `history[20]`. -/
theorem indicesInside_fails :
    (∃ r, ringStep (histinit 21 .static) (.put ⟨[97], by decide⟩ 5 0) = some r ∧
      ringStep r (.put ⟨[98], by decide⟩ 3 0) = none) ∧ ¬ IndicesInside 21 := by
  have hstep : (ringStep (histinit 21 .static) (.put ⟨[97], by decide⟩ 5 0)).any
      (fun r => (ringStep r (.put ⟨[98], by decide⟩ 3 0)).isNone) = true := by decide +kernel
  obtain ⟨r, hput, hnone⟩ := (Option.any_eq_true _ _).mp hstep
  rw [Option.isNone_iff_eq_none] at hnone
  refine ⟨⟨r, hput, hnone⟩, fun hinside => ?_⟩
  obtain ⟨hrun, hcall⟩ := run_first hput (by decide)
  have hsome := hinside _ _ (.put ⟨[98], by decide⟩ 3 0) hrun hcall ⟨by decide, by decide⟩
  rw [hnone] at hsome
  cases hsome

end JitDt.Misclib
