import Mathlib

/-!
# Finite runs of a labelled machine

A machine is a function `step : State → Label → Option State`; every choice the
environment makes (an argument, a scheduling decision, the result of a system
call) is part of the label, so a run is determined by its labels. `none` says
that the step cannot be taken.

`exec` runs a list of labels, `Along` says that every step of a run meets a
condition on the state before it, and the rules below lift facts about one step
to facts about every run.
-/

namespace JitDt.Machine

set_option autoImplicit false

universe u v w
variable {State : Type u} {Label : Type v} {Abs : Type w}

/-- Run a list of labels, stopping with `none` at the first impossible step. -/
def exec (step : State → Label → Option State) : State → List Label → Option State
  | s, [] => some s
  | s, l :: ls =>
    match step s l with
    | some t => exec step t ls
    | none => none

/-- Every step of the run meets `C`, a condition on the state before and the label. -/
def Along (step : State → Label → Option State) (C : State → Label → Prop) :
    State → List Label → Prop
  | _, [] => True
  | s, l :: ls => C s l ∧
    match step s l with
    | some t => Along step C t ls
    | none => True

instance decidableAlong (step : State → Label → Option State) (C : State → Label → Prop)
    [∀ s l, Decidable (C s l)] : ∀ s ls, Decidable (Along step C s ls)
  | _, [] => isTrue trivial
  | s, l :: ls =>
    haveI : Decidable (match step s l with
        | some t => Along step C t ls
        | none => True) :=
      match step s l with
      | some t => decidableAlong step C t ls
      | none => isTrue trivial
    inferInstanceAs (Decidable (C s l ∧ match step s l with
      | some t => Along step C t ls
      | none => True))

section Runs
variable {step : State → Label → Option State} {s t u : State} {l : Label} {ls ms : List Label}

@[simp] theorem exec_nil : exec step s [] = some s := rfl

theorem exec_cons_iff :
    exec step s (l :: ls) = some t ↔ ∃ u, step s l = some u ∧ exec step u ls = some t := by
  cases h : step s l <;> simp [exec, h]

theorem exec_append_iff :
    exec step s (ls ++ ms) = some t ↔ ∃ u, exec step s ls = some u ∧ exec step u ms = some t := by
  induction ls generalizing s with
  | nil => simp
  | cons l ls ih =>
    cases h : step s l with
    | none => simp [exec, h]
    | some v => simpa [exec, h] using ih

theorem exec_snoc_iff :
    exec step s (ls ++ [l]) = some t ↔ ∃ u, exec step s ls = some u ∧ step u l = some t := by
  rw [exec_append_iff]
  refine exists_congr fun u => and_congr_right fun _ => ?_
  cases h : step u l <;> simp [exec, h]

theorem exec_invariant {I : State → Prop} (hstep : ∀ {s l t}, I s → step s l = some t → I t)
    (hs : I s) (h : exec step s ls = some t) : I t := by
  induction ls generalizing s with
  | nil =>
    obtain rfl : s = t := by simpa [exec] using h
    exact hs
  | cons l ls ih =>
    obtain ⟨u, hu, hut⟩ := exec_cons_iff.mp h
    exact ih (hstep hs hu) hut

/-- An invariant that also speaks about the labels executed so far. -/
theorem exec_invariant_past {I : List Label → State → Prop} {s₀ : State} (h₀ : I [] s₀)
    (hstep : ∀ {ls s l t}, exec step s₀ ls = some s → I ls s → step s l = some t →
      I (ls ++ [l]) t)
    (h : exec step s₀ ls = some t) : I ls t := by
  induction ls using List.reverseRecOn generalizing t with
  | nil =>
    obtain rfl : s₀ = t := by simpa [exec] using h
    exact h₀
  | append_singleton ls l ih =>
    obtain ⟨u, hu, hut⟩ := exec_snoc_iff.mp h
    exact hstep hu (ih hu) hut

end Runs

section Conditions
variable {step : State → Label → Option State} {C : State → Label → Prop}
variable {s t : State} {l : Label} {ls ms : List Label}

@[simp] theorem along_nil : Along step C s [] := trivial

theorem along_cons_iff (h : step s l = some t) :
    Along step C s (l :: ls) ↔ C s l ∧ Along step C t ls := by
  simp [Along, h]

theorem along_append_iff (h : exec step s ls = some t) :
    Along step C s (ls ++ ms) ↔ Along step C s ls ∧ Along step C t ms := by
  induction ls generalizing s with
  | nil =>
    obtain rfl : s = t := by simpa [exec] using h
    simp
  | cons l ls ih =>
    obtain ⟨u, hu, hut⟩ := exec_cons_iff.mp h
    rw [List.cons_append, along_cons_iff hu, along_cons_iff hu, ih hut, and_assoc]

theorem along_snoc_iff (h : exec step s ls = some t) :
    Along step C s (ls ++ [l]) ↔ Along step C s ls ∧ C t l := by
  rw [along_append_iff h]
  refine and_congr_right fun _ => ?_
  cases hl : step t l <;> simp [Along, hl]

theorem Along.mono {D : State → Label → Prop} (hCD : ∀ s l, C s l → D s l)
    (h : Along step C s ls) : Along step D s ls := by
  induction ls generalizing s with
  | nil => trivial
  | cons l ls ih =>
    refine ⟨hCD s l h.1, ?_⟩
    cases hl : step s l with
    | none => trivial
    | some t =>
      have h2 := h.2
      rw [hl] at h2
      exact ih h2

theorem Along.and {D : State → Label → Prop} (h : Along step C s ls) (h' : Along step D s ls) :
    Along step (fun s l => C s l ∧ D s l) s ls := by
  induction ls generalizing s with
  | nil => trivial
  | cons l ls ih =>
    refine ⟨⟨h.1, h'.1⟩, ?_⟩
    cases hl : step s l with
    | none => trivial
    | some t =>
      have h2 := h.2
      have h2' := h'.2
      rw [hl] at h2 h2'
      exact ih h2 h2'

theorem along_of_forall {D : Label → Prop} (h : ∀ l ∈ ls, D l) :
    Along step (fun _ l => D l) s ls := by
  induction ls generalizing s with
  | nil => trivial
  | cons l ls ih =>
    refine ⟨h l (by simp), ?_⟩
    cases step s l with
    | none => trivial
    | some t => exact ih fun l hl => h l (List.mem_cons_of_mem _ hl)

theorem exec_invariant_along {I : State → Prop}
    (hstep : ∀ {s l t}, I s → C s l → step s l = some t → I t)
    (hs : I s) (hC : Along step C s ls) (h : exec step s ls = some t) : I t := by
  induction ls generalizing s with
  | nil =>
    obtain rfl : s = t := by simpa [exec] using h
    exact hs
  | cons l ls ih =>
    obtain ⟨u, hu, hut⟩ := exec_cons_iff.mp h
    obtain ⟨hl, hrest⟩ := (along_cons_iff hu).mp hC
    exact ih (hstep hs hl hu) hrest hut

/-- A step that meets `C` in a state of the invariant meets `D`, so every one does. -/
theorem along_of_along {D : State → Label → Prop} {I : State → Prop}
    (hstep : ∀ {s l t}, I s → C s l → step s l = some t → I t)
    (hCD : ∀ {s l}, I s → C s l → D s l) (hs : I s) (hC : Along step C s ls) :
    Along step D s ls := by
  induction ls generalizing s with
  | nil => trivial
  | cons l ls ih =>
    refine ⟨hCD hs hC.1, ?_⟩
    cases hl : step s l with
    | none => trivial
    | some t => exact ih (hstep hs hC.1 hl) ((along_cons_iff hl).mp hC).2

theorem exec_isSome_along {I : State → Prop}
    (hstep : ∀ {s l}, I s → C s l → ∃ t, step s l = some t ∧ I t)
    (hs : I s) (hC : Along step C s ls) : ∃ t, exec step s ls = some t ∧ I t := by
  induction ls generalizing s with
  | nil => exact ⟨s, rfl, hs⟩
  | cons l ls ih =>
    obtain ⟨u, hu, hI⟩ := hstep hs hC.1
    obtain ⟨t, ht, htI⟩ := ih hI ((along_cons_iff hu).mp hC).2
    exact ⟨t, exec_cons_iff.mpr ⟨u, hu, ht⟩, htI⟩

theorem along_congr {D : State → Label → Prop} {I : State → Prop}
    (hstep : ∀ {s l t}, I s → step s l = some t → I t)
    (hCD : ∀ {s l t}, I s → step s l = some t → (C s l ↔ D s l))
    (hs : I s) (h : exec step s ls = some t) : Along step C s ls ↔ Along step D s ls := by
  induction ls generalizing s with
  | nil => simp
  | cons l ls ih =>
    obtain ⟨u, hu, hut⟩ := exec_cons_iff.mp h
    rw [along_cons_iff hu, along_cons_iff hu, hCD hs hu, ih (hstep hs hu) hut]

/-- Two conditions that agree wherever the invariant holds, which only steps that meet the
second one need to keep; also for runs that end in a step that fails. -/
theorem along_iff_along {D : State → Label → Prop} {I : State → Prop}
    (hstep : ∀ {s l t}, I s → D s l → step s l = some t → I t)
    (hCD : ∀ {s l}, I s → (C s l ↔ D s l)) (hs : I s) : Along step C s ls ↔ Along step D s ls :=
  ⟨along_of_along (fun hI hC h => hstep hI ((hCD hI).mp hC) h) (fun hI => (hCD hI).mp) hs,
    along_of_along hstep (fun hI => (hCD hI).mpr) hs⟩

/-- `P` holds in every state of the run, the first one included. -/
def Always (step : State → Label → Option State) (P : State → Prop) (s : State)
    (ls : List Label) : Prop :=
  ∀ pre t, pre <+: ls → exec step s pre = some t → P t

theorem always_cons_iff {P : State → Prop} (h : step s l = some t) :
    Always step P s (l :: ls) ↔ P s ∧ Always step P t ls := by
  constructor
  · intro hall
    refine ⟨hall [] s (List.nil_prefix) rfl, ?_⟩
    intro pre u hpre hu
    exact hall (l :: pre) u (List.cons_prefix_cons.mpr ⟨rfl, hpre⟩)
      (exec_cons_iff.mpr ⟨t, h, hu⟩)
  · rintro ⟨hs, hall⟩ pre u hpre hu
    rcases List.prefix_cons_iff.mp hpre with rfl | ⟨pre', rfl, hpre'⟩
    · obtain rfl : s = u := by simpa using hu
      exact hs
    · obtain ⟨v, hv, hvu⟩ := exec_cons_iff.mp hu
      rw [h] at hv
      cases hv
      exact hall pre' u hpre' hvu

theorem Always.start {P : State → Prop} (h : Always step P s ls) : P s :=
  h [] s List.nil_prefix rfl

/-- When `P` survives exactly the steps that meet `C`, it holds all along exactly the runs
whose steps all meet `C`; for the runs within `D`. -/
theorem always_iff_along_within {P I : State → Prop} {D : State → Label → Prop}
    (hstep : ∀ {s l t}, I s → P s → D s l → step s l = some t → I t ∧ (P t ↔ C s l))
    (hI : I s) (hP : P s) (hD : Along step D s ls) (h : exec step s ls = some t) :
    Always step P s ls ↔ Along step C s ls := by
  induction ls generalizing s with
  | nil =>
    refine iff_of_true ?_ trivial
    intro pre u hpre hu
    rw [List.prefix_nil.mp hpre] at hu
    obtain rfl : s = u := by simpa using hu
    exact hP
  | cons l ls ih =>
    obtain ⟨u, hu, hut⟩ := exec_cons_iff.mp h
    obtain ⟨hl, hDu⟩ := (along_cons_iff hu).mp hD
    obtain ⟨hIu, hiff⟩ := hstep hI hP hl hu
    rw [always_cons_iff hu, along_cons_iff hu]
    constructor
    · rintro ⟨_, hall⟩
      exact ⟨hiff.mp hall.start, (ih hIu hall.start hDu hut).mp hall⟩
    · rintro ⟨hC, hrest⟩
      exact ⟨hP, (ih hIu (hiff.mpr hC) hDu hut).mpr hrest⟩

theorem always_iff_along {P I : State → Prop}
    (hstep : ∀ {s l t}, I s → P s → step s l = some t → I t ∧ (P t ↔ C s l))
    (hI : I s) (hP : P s) (h : exec step s ls = some t) :
    Always step P s ls ↔ Along step C s ls :=
  always_iff_along_within (D := fun _ _ => True) (fun hI hP _ => hstep hI hP) hI hP
    (along_of_forall fun _ _ => trivial) h

end Conditions

section Determined
variable {step : State → Label → Option State}

/-- The state decides which label can be executed. -/
def Determined (step : State → Label → Option State) : Prop :=
  ∀ s l m t u, step s l = some t → step s m = some u → l = m

/-- Of two runs from one state, one continues the other. -/
theorem exec_comparable (hdet : Determined step) {s t u : State} {ls ms : List Label}
    (h : exec step s ls = some t) (h' : exec step s ms = some u) :
    (∃ r, ms = ls ++ r ∧ exec step t r = some u) ∨ ∃ r, ls = ms ++ r ∧ exec step u r = some t := by
  induction ls generalizing s ms with
  | nil =>
    obtain rfl : s = t := by simpa [exec] using h
    exact .inl ⟨ms, rfl, h'⟩
  | cons l ls ih =>
    cases ms with
    | nil =>
      obtain rfl : s = u := by simpa [exec] using h'
      exact .inr ⟨l :: ls, rfl, h⟩
    | cons m ms =>
      obtain ⟨v, hv, hvt⟩ := exec_cons_iff.mp h
      obtain ⟨w, hw, hwu⟩ := exec_cons_iff.mp h'
      obtain rfl : l = m := hdet _ _ _ _ _ hv hw
      obtain rfl : v = w := Option.some.inj (hv.symm.trans hw)
      rcases ih hvt hwu with ⟨r, rfl, hr⟩ | ⟨r, rfl, hr⟩
      · exact .inl ⟨r, rfl, hr⟩
      · exact .inr ⟨r, rfl, hr⟩

/-- Two runs that cannot go on are the same. -/
theorem exec_unique_of_stuck (hdet : Determined step) {s t u : State} {ls ms : List Label}
    (h : exec step s ls = some t) (h' : exec step s ms = some u) (ht : ∀ l, step t l = none)
    (hu : ∀ l, step u l = none) : ls = ms ∧ t = u := by
  have hend : ∀ {v w : State} {r : List Label}, (∀ l, step v l = none) → exec step v r = some w →
      r = [] ∧ v = w := by
    intro v w r hv hr
    cases r with
    | nil => exact ⟨rfl, by simpa [exec] using hr⟩
    | cons l r => simp [exec, hv l] at hr
  rcases exec_comparable hdet h h' with ⟨r, rfl, hr⟩ | ⟨r, rfl, hr⟩
  · obtain ⟨rfl, rfl⟩ := hend ht hr
    exact ⟨(List.append_nil _).symm, rfl⟩
  · obtain ⟨rfl, rfl⟩ := hend hu hr
    exact ⟨List.append_nil _, rfl⟩

end Determined

section Counting
variable {step : State → Label → Option State} {C : State → Label → Prop}
variable [∀ s l, Decidable (C s l)]
variable {s t : State} {l : Label} {ls : List Label}

/-- How many steps of the run meet `C`. -/
def countAlong (step : State → Label → Option State) (C : State → Label → Prop)
    [∀ s l, Decidable (C s l)] : State → List Label → Nat
  | _, [] => 0
  | s, l :: ls => (if C s l then 1 else 0) +
    match step s l with
    | some t => countAlong step C t ls
    | none => 0

theorem countAlong_snoc (h : exec step s ls = some t) :
    countAlong step C s (ls ++ [l]) = countAlong step C s ls + if C t l then 1 else 0 := by
  induction ls generalizing s with
  | nil =>
    obtain rfl : s = t := by simpa [exec] using h
    cases hl : step s l <;> simp [countAlong, hl]
  | cons m ls ih =>
    obtain ⟨u, hu, hut⟩ := exec_cons_iff.mp h
    simp only [List.cons_append, countAlong, hu]
    rw [ih hut, Nat.add_assoc]

theorem countAlong_eq_zero_iff (h : exec step s ls = some t) :
    countAlong step C s ls = 0 ↔ Along step (fun s l => ¬ C s l) s ls := by
  induction ls generalizing s with
  | nil => simp [countAlong]
  | cons l ls ih =>
    obtain ⟨u, hu, hut⟩ := exec_cons_iff.mp h
    rw [along_cons_iff hu, ← ih hut]
    simp only [countAlong, hu]
    split <;> simp_all

end Counting

section Collecting
variable {step : State → Label → Option State} {Out : Type w} {f : State → Label → List Out}
variable {s t : State} {l : Label} {ls : List Label}

/-- What the steps of a run put out, in order. -/
def collect (step : State → Label → Option State) (f : State → Label → List Out) :
    State → List Label → List Out
  | _, [] => []
  | s, l :: ls => f s l ++
    match step s l with
    | some t => collect step f t ls
    | none => []

theorem collect_snoc (h : exec step s ls = some t) :
    collect step f s (ls ++ [l]) = collect step f s ls ++ f t l := by
  induction ls generalizing s with
  | nil =>
    obtain rfl : s = t := by simpa [exec] using h
    cases hl : step s l <;> simp [collect, hl]
  | cons m ls ih =>
    obtain ⟨u, hu, hut⟩ := exec_cons_iff.mp h
    simp only [List.cons_append, collect, hu]
    rw [ih hut, List.append_assoc]

end Collecting

section Simulation
variable {step : State → Label → Option State} {astep : Abs → Label → Abs}
variable {R : State → Abs → Prop} {s t : State} {a : Abs} {ls : List Label}

/-- Forward simulation by a deterministic abstract machine that never gets stuck. -/
theorem exec_simulation {C : State → Label → Prop}
    (hstep : ∀ {s a l t}, R s a → C s l → step s l = some t → R t (astep a l))
    (hs : R s a) (hC : Along step C s ls) (h : exec step s ls = some t) :
    R t (ls.foldl astep a) := by
  induction ls generalizing s a with
  | nil =>
    obtain rfl : s = t := by simpa [exec] using h
    exact hs
  | cons l ls ih =>
    obtain ⟨u, hu, hut⟩ := exec_cons_iff.mp h
    obtain ⟨hl, hrest⟩ := (along_cons_iff hu).mp hC
    exact ih (hstep hs hl hu) hrest hut

end Simulation

section Within
variable {step : State → Label → Option State} {P : Label → Prop} {s t u : State} {j k : Nat}

/-- At most `k` steps with labels in `P` lead from `s` to `t`. -/
def Within (step : State → Label → Option State) (P : Label → Prop) (k : Nat) (s t : State) : Prop :=
  ∃ ls : List Label, ls.length ≤ k ∧ (∀ l ∈ ls, P l) ∧ exec step s ls = some t

theorem Within.refl (s : State) : Within step P 0 s s := ⟨[], le_refl 0, by simp, rfl⟩

theorem Within.trans (h : Within step P j s t) (h' : Within step P k t u) :
    Within step P (j + k) s u := by
  obtain ⟨ls, hj, hls, hst⟩ := h
  obtain ⟨ms, hk, hms, htu⟩ := h'
  refine ⟨ls ++ ms, by rw [List.length_append]; omega, ?_, exec_append_iff.mpr ⟨t, hst, htu⟩⟩
  intro l hl
  exact (List.mem_append.mp hl).elim (hls l) (hms l)

theorem Within.head {l : Label} (hl : P l) (hstep : step s l = some t)
    (h : Within step P k t u) : Within step P (k + 1) s u := by
  obtain ⟨ls, hk, hls, htu⟩ := h
  exact ⟨l :: ls, by simpa using hk, List.forall_mem_cons.mpr ⟨hl, hls⟩,
    exec_cons_iff.mpr ⟨t, hstep, htu⟩⟩

theorem Within.mono {Q : Label → Prop} (h : Within step P j s t) (hjk : j ≤ k)
    (hPQ : ∀ l, P l → Q l) : Within step Q k s t := by
  obtain ⟨ls, hj, hls, hst⟩ := h
  exact ⟨ls, hj.trans hjk, fun l hl => hPQ l (hls l hl), hst⟩

theorem Within.invariant {I : State → Prop} (hstep : ∀ {s l t}, I s → step s l = some t → I t)
    (hs : I s) (h : Within step P k s t) : I t := by
  obtain ⟨ls, _, _, hst⟩ := h
  exact exec_invariant hstep hs hst

end Within

end JitDt.Machine
