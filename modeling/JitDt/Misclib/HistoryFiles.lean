import JitDt.Misclib.HistoryQueue

/-!
# Which files a slot of the history ring holds

A file is stored under the date of its `histput`. A set can only be mixed when
the producer gives a new date to a slot that still holds a file: `_histremove`
cleared the slot, but a late file was stored in it afterwards. `CleanReuse`
excludes exactly that step.
-/

namespace JitDt.Misclib

set_option autoImplicit false

open RingIndex Machine

/-- The call registers path `p` under the date `d`. -/
def HistOp.Registers (p : Path) (d : Nat) : HistOp → Prop
  | .put path dt _ => path = p ∧ ull dt = d
  | _ => False

instance (p : Path) (d : Nat) (op : HistOp) : Decidable (op.Registers p d) :=
  match op with
  | .put _ _ _ => inferInstanceAs (Decidable (_ ∧ _))
  | .get => isFalse id
  | .remove => isFalse id

/-- Every file of every slot was registered under the date the slot now has. -/
def SetsIntact (ops : List HistOp) (r : Ring) : Prop :=
  ∀ s < maxHistory, ∀ t p, (r.history s).fname t = some p → ∃ op ∈ ops, op.Registers p (r.date s)

/-- The slot that a new date takes over holds no file of another type. -/
def CleanReuse (r : Ring) : HistOp → Prop
  | .put _ dt tent =>
    ¬(tent < 0 ∨ tent > (fnameMax : Int)) → r.date r.prodhistp < ull dt →
      ∀ t : Fin fnameMax, (t.val : Int) ≠ tent → (r.history (nextEntry r)).fname t = none
  | _ => True

instance (r : Ring) (op : HistOp) : Decidable (CleanReuse r op) :=
  match op with
  | .put _ _ _ => inferInstanceAs (Decidable (_ → _ → ∀ _, _ → _))
  | .get => isTrue trivial
  | .remove => isTrue trivial

/-- `SetsIntact` in every state the calls lead through. -/
def IntactThroughout (nh : Int) (ops : List HistOp) : Prop :=
  ∀ ops₁ ops₂ r, ops = ops₁ ++ ops₂ → exec histStep (histinit nh .static) ops₁ = some r →
    SetsIntact ops₁ r

theorem fname_of_removed {r : Ring} {s : Nat} {t : Fin fnameMax} {p : Path}
    (h : (r.removed.history s).fname t = some p) : (r.history s).fname t = some p := by
  by_cases hs : s = r.rmhistp
  · subst hs
    simp [Ring.removed] at h
  · simpa [Ring.removed, hs] using h

theorem fname_of_roomy {r : Ring} {s : Nat} {t : Fin fnameMax} {p : Path}
    (h : (r.roomy.history s).fname t = some p) : (r.history s).fname t = some p := by
  unfold Ring.roomy at h
  split at h
  · exact fname_of_removed (r := r.advanced) h
  · exact h

theorem fname_of_store {r : Ring} {i s : Nat} {t u : Fin fnameMax} {cp p : Path}
    (h : ((r.store i t cp).history s).fname u = some p) :
    (s = i ∧ cp = p) ∨ (r.history s).fname u = some p := by
  by_cases hs : s = i
  · subst hs
    by_cases hu : u = t
    · subst hu
      exact Or.inl ⟨rfl, by simpa [Ring.store, Ring.withEntry] using h⟩
    · exact Or.inr (by simpa [Ring.store, Ring.withEntry, hu] using h)
  · exact Or.inr (by simpa [Ring.store, Ring.withEntry, hs] using h)

theorem fname_of_opened {r : Ring} {d s : Nat} {t u : Fin fnameMax} {cp p : Path}
    (h : ((r.opened d t cp).history s).fname u = some p) :
    (s = nextEntry r ∧ cp = p) ∨
      ((r.history s).fname u = some p ∧ (s = nextEntry r → u ≠ t)) := by
  by_cases hs : s = nextEntry r
  · subst hs
    by_cases hu : u = t
    · subst hu
      exact Or.inl ⟨rfl, by simpa [Ring.opened, Ring.withEntry] using h⟩
    · refine Or.inr ⟨fname_of_roomy ?_, fun _ => hu⟩
      simpa [Ring.opened, Ring.withEntry, hu] using h
  · refine Or.inr ⟨fname_of_roomy ?_, fun hs' => absurd hs' hs⟩
    simpa [Ring.opened, Ring.withEntry, hs] using h

theorem histStep_origin {r r' : Ring} {op : HistOp} (hclean : CleanReuse r op)
    (h : histStep r op = some r') {s : Nat} {t : Fin fnameMax} {p : Path}
    (hf : (r'.history s).fname t = some p) :
    op.Registers p (r'.date s) ∨ ((r.history s).fname t = some p ∧ r'.date s = r.date s) := by
  cases op with
  | put path dt tent =>
    cases histput_cases h with
    | refused _ h' =>
      subst h'
      exact Or.inr ⟨hf, rfl⟩
    | same u _ _ hd h' =>
      subst h'
      rcases fname_of_store hf with ⟨rfl, rfl⟩ | hold
      · exact Or.inl ⟨rfl, hd.trans (date_store r _ _ u path).symm⟩
      · exact Or.inr ⟨hold, date_store r _ _ u path⟩
    | new u hu _ hd _ h' =>
      subst h'
      have hrange : ¬(tent < 0 ∨ tent > (fnameMax : Int)) := by
        have := u.isLt
        omega
      rcases fname_of_opened hf with ⟨rfl, rfl⟩ | ⟨hold, hother⟩
      · exact Or.inl ⟨rfl, (date_opened_self r (ull dt) u path).symm⟩
      · by_cases hs : s = nextEntry r
        · -- a file left in the slot: what `CleanReuse` excludes
          have hne : (t.val : Int) ≠ tent := by
            rw [hu]
            exact fun heq => hother hs (Fin.ext (by omega))
          have hnone := hclean hrange hd t hne
          rw [← hs, hold] at hnone
          cases hnone
        · exact Or.inr ⟨hold, date_opened_other hs⟩
    | late u _ i _ _ hdi _ h' =>
      subst h'
      rcases fname_of_store hf with ⟨rfl, rfl⟩ | hold
      · exact Or.inl ⟨rfl, hdi.trans (date_store r _ _ u path).symm⟩
      · exact Or.inr ⟨hold, date_store r _ _ u path⟩
    | lost _ _ _ h' =>
      subst h'
      exact Or.inr ⟨hf, rfl⟩
  | get =>
    obtain rfl := histStep_get h
    exact Or.inr ⟨hf, rfl⟩
  | remove =>
    obtain ⟨_, _, rfl⟩ := histremove_iff.mp h
    exact Or.inr ⟨fname_of_removed hf, date_removed r s⟩

theorem SetsIntact.step {ops : List HistOp} {r r' : Ring} {op : HistOp} (hI : SetsIntact ops r)
    (hclean : CleanReuse r op) (h : histStep r op = some r') : SetsIntact (ops ++ [op]) r' := by
  intro s hs t p hf
  rcases histStep_origin hclean h hf with hreg | ⟨hold, hdate⟩
  · exact ⟨op, by simp, hreg⟩
  · obtain ⟨o, ho, hreg⟩ := hI s hs t p hold
    exact ⟨o, List.mem_append_left _ ho, by rwa [hdate]⟩

theorem sets_intact_of_clean_reuse {nh : Int} {ops : List HistOp} {r : Ring}
    (hclean : Along histStep CleanReuse (histinit nh .static) ops)
    (h : exec histStep (histinit nh .static) ops = some r) : SetsIntact ops r := by
  induction ops using List.reverseRecOn generalizing r with
  | nil =>
    obtain rfl : histinit nh .static = r := by simpa using h
    intro s _ t p hf
    cases hf
  | append_singleton ops op ih =>
    obtain ⟨r₁, hr₁, hstep⟩ := exec_snoc_iff.mp h
    obtain ⟨hclean₁, hop⟩ := (along_snoc_iff hr₁).mp hclean
    exact (ih hclean₁ hr₁).step hop hstep

/-! ## The condition is exact -/

theorem At.step {r r' : Ring} {P C : Nat} {op : HistOp} (h : At r P C)
    (hstep : histStep r op = some r') : ∃ P' C', At r' P' C' := by
  cases op with
  | put path dt tent =>
    obtain ⟨P', h'⟩ := h.histput hstep
    exact ⟨P', _, h'⟩
  | get =>
    obtain rfl := histStep_get hstep
    exact ⟨P, C, h⟩
  | remove =>
    obtain ⟨_, _, rfl⟩ := histremove_iff.mp hstep
    exact ⟨P, C + 1, h.removed⟩

theorem exec_at {nh : Int} {ops : List HistOp} {r : Ring}
    (h : exec histStep (histinit nh .static) ops = some r) : ∃ P C, At r P C :=
  exec_invariant (I := fun r => ∃ P C, At r P C)
    (fun hs hstep => by
      obtain ⟨P, C, hat⟩ := hs
      exact hat.step hstep)
    ⟨0, 0, at_histinit nh⟩ h

theorem At.rmhistp_ne_nextEntry {r : Ring} {P C : Nat} (h : At r P C) (hf : r.Full) :
    nextEntry r ≠ r.advanced.rmhistp := by
  have hsize := h.size
  have hle := h.num_le
  have hnum := h.num
  have hf' : (r.nhist : Int) - keepFileCount < r.numhist + 1 := hf
  rw [h.rmhistp_advanced, h.nextEntry_eq]
  unfold keepFileCount at *
  exact mod_ne_of_lt (by omega) (by omega)

theorem At.fname_opened {r : Ring} {P C : Nat} (h : At r P C) (d : Nat) {t u : Fin fnameMax}
    (hu : u ≠ t) (cp : Path) :
    ((r.opened d t cp).history (nextEntry r)).fname u = (r.history (nextEntry r)).fname u := by
  have hroomy : (r.roomy.history (nextEntry r)).fname u = (r.history (nextEntry r)).fname u := by
    unfold Ring.roomy
    split
    · rename_i hf
      simp [Ring.removed, h.rmhistp_ne_nextEntry hf]
      rfl
    · rfl
  simpa [Ring.opened, Ring.withEntry, hu] using hroomy

/-- Where every path belongs to one date, a step that is not clean mixes a set. -/
theorem clean_reuse_of_intact {ops : List HistOp} {r r' : Ring} {P C : Nat} {op : HistOp}
    (hat : At r P C) (dateOf : Path → Int64)
    (hdate : ∀ path dt tent, .put path dt tent ∈ ops ++ [op] → dt = dateOf path)
    (hI : SetsIntact ops r) (h : histStep r op = some r') (hI' : SetsIntact (ops ++ [op]) r') :
    CleanReuse r op := by
  cases op with
  | get => trivial
  | remove => trivial
  | put path dt tent =>
    intro hrange hd u hu
    cases histput_cases h with
    | refused ht _ => exact absurd ht hrange
    | same _ _ _ hd' _ => exact absurd hd (by rw [Ring.date, hd']; exact lt_irrefl _)
    | late _ _ _ _ hd' _ _ _ => exact absurd hd (Nat.lt_asymm hd')
    | lost _ hd' _ _ => exact absurd hd (Nat.lt_asymm hd')
    | new t ht hp _ _ h' =>
      subst h'
      by_contra hsome
      obtain ⟨q, hq⟩ := Option.ne_none_iff_exists'.mp hsome
      have hut : u ≠ t := fun heq => hu (by rw [ht, heq])
      have hq' : ((r.opened (ull dt) t path).signal.history (nextEntry r)).fname u = some q :=
        (hat.fname_opened (ull dt) hut path).trans hq
      -- the same path would be registered under the old and under the new date
      obtain ⟨o, ho, hreg⟩ := hI _ hp u q hq
      obtain ⟨o', ho', hreg'⟩ := hI' _ hp u q hq'
      rw [date_signal, date_opened_self] at hreg'
      have hold : ull (dateOf q) = r.date (nextEntry r) := by
        cases o with
        | put path₁ dt₁ tent₁ =>
          obtain ⟨rfl, hdt⟩ := hreg
          rw [← hdate _ _ _ (List.mem_append_left _ ho), hdt]
        | get => exact absurd hreg id
        | remove => exact absurd hreg id
      have hnew : ull (dateOf q) = ull dt := by
        cases o' with
        | put path₁ dt₁ tent₁ =>
          obtain ⟨rfl, hdt⟩ := hreg'
          rw [← hdate _ _ _ ho', hdt]
        | get => exact absurd hreg' id
        | remove => exact absurd hreg' id
      have := hat.newest (nextEntry r)
      omega

/-- Set integrity of the history ring. The sets stay intact in every run in which
no new date takes over a slot with a file left in it; and where every path belongs
to one date, as the watcher computes it from the file name, only in those. -/
theorem sets_intact_iff_clean_reuse {nh : Int} {ops : List HistOp} {r : Ring}
    (h : exec histStep (histinit nh .static) ops = some r) :
    (Along histStep CleanReuse (histinit nh .static) ops → IntactThroughout nh ops) ∧
    ((∃ dateOf : Path → Int64, ∀ path dt tent, .put path dt tent ∈ ops → dt = dateOf path) →
      (IntactThroughout nh ops ↔ Along histStep CleanReuse (histinit nh .static) ops)) := by
  have hif : Along histStep CleanReuse (histinit nh .static) ops → IntactThroughout nh ops := by
    rintro hclean ops₁ ops₂ r₁ rfl hr₁
    exact sets_intact_of_clean_reuse ((along_append_iff hr₁).mp hclean).1 hr₁
  refine ⟨hif, ?_⟩
  rintro ⟨dateOf, hdate⟩
  refine ⟨?_, hif⟩
  clear hif
  induction ops using List.reverseRecOn generalizing r with
  | nil => exact fun _ => along_nil
  | append_singleton ops op ih =>
    intro hI
    obtain ⟨r₁, hr₁, hstep⟩ := exec_snoc_iff.mp h
    obtain ⟨P, C, hat⟩ := exec_at hr₁
    have hprev : IntactThroughout nh ops := by
      rintro ops₁ ops₂ r₂ rfl hr₂
      exact hI ops₁ (ops₂ ++ [op]) r₂ (List.append_assoc _ _ _) hr₂
    have hclean := ih hr₁ (fun p d t hm => hdate p d t (List.mem_append_left _ hm)) hprev
    refine (along_snoc_iff hr₁).mpr ⟨hclean, ?_⟩
    exact clean_reuse_of_intact hat dateOf hdate (hprev ops [] r₁ (by simp) hr₁) hstep
      (hI (ops ++ [op]) [] r (by simp) h)

theorem letter_ne (k : Nat) : (0 : UInt8) ∉ [UInt8.ofNat (97 + k % 26)] := by
  rw [List.mem_singleton]
  intro he
  have hval := congrArg UInt8.toNat he
  rw [UInt8.toNat_ofNat'] at hval
  have hzero : (0 : UInt8).toNat = 0 := rfl
  omega

/-- The file whose name is the `k`-th letter. -/
def letter (k : Nat) : Path := ⟨[UInt8.ofNat (97 + k % 26)], letter_ne k⟩

/-- Date 6 takes over the slot of date 1, of which two files were handed out. -/
def reuseRun : List HistOp :=
  [.put (letter 0) 1 0, .put (letter 1) 1 1, .get, .remove, .put (letter 2) 2 0, .remove,
    .put (letter 3) 3 0, .put (letter 4) 4 0, .put (letter 5) 5 0, .put (letter 6) 6 0, .remove,
    .get]

theorem sets_intact_iff_clean_reuse_run :
    ∃ r, exec histStep (histinit 5 .static) reuseRun = some r ∧ r.date 0 = 6 ∧
      (r.history 0).fname 0 = some (letter 6) ∧ (r.history 0).fname 1 = none ∧
      IntactThroughout 5 reuseRun := by
  have hsome : (exec histStep (histinit 5 .static) reuseRun).isSome := by decide
  obtain ⟨r, hr⟩ := Option.isSome_iff_exists.mp hsome
  have hslot : (exec histStep (histinit 5 .static) reuseRun).map
      (fun r => (r.date 0, (r.history 0).fname 0, (r.history 0).fname 1)) =
        some (6, some (letter 6), none) := by decide
  simp only [hr, Option.map_some, Option.some.injEq, Prod.mk.injEq] at hslot
  exact ⟨r, hr, hslot.1, hslot.2.1, hslot.2.2, (sets_intact_iff_clean_reuse hr).1 (by decide)⟩

/-- The late file comes when the slot of its date has left the queue. -/
def lateRun : List HistOp :=
  [.put (letter 0) 1 0, .remove, .put (letter 1) 2 0, .remove, .put (letter 2) 3 0, .remove,
    .put (letter 23) 1 1, .put (letter 3) 4 0, .put (letter 4) 5 0, .put (letter 5) 6 0, .remove,
    .get]

/-- A late file of date 1 stays in slot 0, which is handed out as the set of date 6. -/
theorem late_file_in_newer_set : Along histStep Allowed (histinit 5 .static) lateRun ∧
    ∃ r, exec histStep (histinit 5 .static) lateRun = some r ∧ r.conshistp = 0 ∧ r.date 0 = 6 ∧
      (r.history 0).fname 1 = some (letter 23) ∧ ¬ SetsIntact lateRun r := by
  have hsome : (exec histStep (histinit 5 .static) lateRun).isSome := by decide
  obtain ⟨r, hr⟩ := Option.isSome_iff_exists.mp hsome
  have hslot : (exec histStep (histinit 5 .static) lateRun).map
      (fun r => (r.conshistp, r.date 0, (r.history 0).fname 1)) =
        some (0, 6, some (letter 23)) := by
    decide
  simp only [hr, Option.map_some, Option.some.injEq, Prod.mk.injEq] at hslot
  obtain ⟨hcons, hdate, hlate⟩ := hslot
  refine ⟨by decide, r, hr, hcons, hdate, hlate, fun hintact => ?_⟩
  obtain ⟨op, hop, hreg⟩ := hintact 0 (by decide) 1 (letter 23) hlate
  rw [hdate] at hreg
  have hnever : ∀ o ∈ lateRun, ¬ o.Registers (letter 23) 6 := by decide
  exact hnever op hop hreg

end JitDt.Misclib
