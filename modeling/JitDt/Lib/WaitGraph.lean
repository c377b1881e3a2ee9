import JitDt.Lib.Machine

/-!
# Wait-for graphs

A resource has at most one owner, and a process that asks for a resource waits until it gets it.
A process may lose a resource that it owns: it stays its owner and never gives it back.

From a resource one goes on to its owner, to the resource that one waits for, and so on. `Live`
says that this comes to an end, at a resource that is free or at a process that goes on with what
it owns in its hands. In a machine whose steps are steps of the graph, and whose processes can
always finish what they have begun, the live resources are exactly those that can become free.
-/

namespace JitDt

set_option autoImplicit false

open Machine Relation

universe u v w x

structure WaitGraph (P : Type u) (R : Type v) where
  owner : R → Option P
  waits : P → Option R
  lost : R → Prop
  owner_of_lost : ∀ r, lost r → owner r ≠ none

namespace WaitGraph

variable {P : Type u} {R : Type v} {g g' : WaitGraph P R} {p : P} {q r : R}

inductive Live (g : WaitGraph P R) : R → Prop where
  | free {r : R} (hfree : g.owner r = none) : Live g r
  | held {r : R} {p : P} (howner : g.owner r = some p) (hkept : ¬ g.lost r)
      (hnext : ∀ q, g.waits p = some q → Live g q) : Live g r

theorem Live.running (howner : g.owner r = some p) (hkept : ¬ g.lost r) (hrun : g.waits p = none) :
    g.Live r := by
  refine .held howner hkept fun q hq => ?_
  rw [hrun] at hq
  cases hq

theorem exists_owner (h : ¬ g.Live r) : ∃ p, g.owner r = some p :=
  Option.ne_none_iff_exists'.mp fun hfree => h (.free hfree)

theorem Live.not_lost (h : g.Live r) : ¬ g.lost r := by
  cases h with
  | free hfree => exact fun hlost => g.owner_of_lost r hlost hfree
  | held _ hkept _ => exact hkept

/-- What is not live: resources that are lost, or whose owners wait for one another. -/
theorem not_live_of_closed {D : R → Prop} (hclosed : ∀ r, D r → ∃ p, g.owner r = some p ∧
    (g.lost r ∨ ∃ q, g.waits p = some q ∧ D q)) (hr : D r) : ¬ g.Live r := by
  intro hlive
  induction hlive with
  | @free r hfree =>
    obtain ⟨p, hp, _⟩ := hclosed r hr
    rw [hfree] at hp
    cases hp
  | @held r p howner hkept _ ih =>
    obtain ⟨p', hp', hlost | ⟨q, hq, hDq⟩⟩ := hclosed r hr
    · exact hkept hlost
    · rw [howner] at hp'
      obtain rfl := Option.some.inj hp'
      exact ih q hq hDq

/-- What one step does to the graph. Who gives a resource back may at once wait for another. -/
inductive Change (g g' : WaitGraph P R) : Prop where
  | stay (howner : ∀ r, g'.owner r = g.owner r) (hwaits : ∀ p, g'.waits p = g.waits p)
      (hlost : ∀ r, g'.lost r ↔ g.lost r)
  | ask (p : P) (hrun : g.waits p = none) (howner : ∀ r, g'.owner r = g.owner r)
      (hwaits : ∀ p', p' ≠ p → g'.waits p' = g.waits p') (hlost : ∀ r, g'.lost r ↔ g.lost r)
  | take (p : P) (q : R) (hwait : g.waits p = some q) (hfree : g.owner q = none)
      (hself : g'.owner q = some p) (howner : ∀ r, r ≠ q → g'.owner r = g.owner r)
      (hrun : g'.waits p = none) (hwaits : ∀ p', p' ≠ p → g'.waits p' = g.waits p')
      (hlost : ∀ r, g'.lost r ↔ g.lost r)
  | give (p : P) (q : R) (hheld : g.owner q = some p) (hkept : ¬ g.lost q)
      (hrun : g.waits p = none) (hself : g'.owner q = none)
      (howner : ∀ r, r ≠ q → g'.owner r = g.owner r)
      (hwaits : ∀ p', p' ≠ p → g'.waits p' = g.waits p') (hlost : ∀ r, g'.lost r ↔ g.lost r)
  | lose (p : P) (q : R) (hheld : g.owner q = some p) (hrun : g.waits p = none)
      (howner : ∀ r, g'.owner r = g.owner r) (hwaits : ∀ p, g'.waits p = g.waits p)
      (hlost : ∀ r, g'.lost r ↔ r = q ∨ g.lost r)

namespace Change

/-- A resource that is not live never becomes so. -/
theorem live (h : Change g g') (hlive : g'.Live r) : g.Live r := by
  cases h with
  | stay howner hwaits hlost =>
    induction hlive with
    | free hfree => exact .free (by rwa [howner] at hfree)
    | held ho hkept _ ih =>
      exact .held (by rwa [howner] at ho) (by rwa [hlost] at hkept)
        fun q hq => ih q (by rwa [hwaits])
  | ask p hrun howner hwaits hlost =>
    induction hlive with
    | free hfree => exact .free (by rwa [howner] at hfree)
    | @held r p' ho hkept _ ih =>
      rw [howner] at ho
      rw [hlost] at hkept
      by_cases hp : p' = p
      · exact .running ho hkept (by rwa [hp])
      · exact .held ho hkept fun q hq => ih q (by rwa [hwaits p' hp])
  | take p q hwait hfree hself howner hrun hwaits hlost =>
    induction hlive with
    | @free r hfree' =>
      by_cases hr : r = q
      · exact .free (by rwa [hr])
      · exact .free (by rwa [howner r hr] at hfree')
    | @held r p' ho hkept _ ih =>
      rw [hlost] at hkept
      by_cases hr : r = q
      · exact .free (by rwa [hr])
      · rw [howner r hr] at ho
        by_cases hp : p' = p
        · -- before the step `p` waited for `q`, which was free
          refine .held ho hkept fun q' hq' => ?_
          rw [hp, hwait] at hq'
          obtain rfl : q = q' := Option.some.inj hq'
          exact .free hfree
        · exact .held ho hkept fun q' hq' => ih q' (by rwa [hwaits p' hp])
  | give p q hheld hkept hrun hself howner hwaits hlost =>
    induction hlive with
    | @free r hfree =>
      by_cases hr : r = q
      · exact .running (by rwa [hr]) (by rwa [hr]) hrun
      · exact .free (by rwa [howner r hr] at hfree)
    | @held r p' ho hkept' _ ih =>
      by_cases hr : r = q
      · exact .running (by rwa [hr]) (by rwa [hr]) hrun
      · rw [howner r hr] at ho
        rw [hlost] at hkept'
        by_cases hp : p' = p
        · exact .running ho hkept' (by rwa [hp])
        · exact .held ho hkept' fun q' hq' => ih q' (by rwa [hwaits p' hp])
  | lose p q hheld hrun howner hwaits hlost =>
    induction hlive with
    | free hfree => exact .free (by rwa [howner] at hfree)
    | held ho hkept _ ih =>
      rw [hlost, not_or] at hkept
      exact .held (by rwa [howner] at ho) hkept.2 fun q' hq' => ih q' (by rwa [hwaits])

/-- Nobody can do anything about it. -/
theorem owner_of_not_live (h : Change g g') (hdead : ¬ g.Live r) : g'.owner r = g.owner r := by
  cases h with
  | stay howner _ _ => exact howner r
  | ask p _ howner _ _ => exact howner r
  | take p q _ hfree _ howner _ _ _ =>
    apply howner
    rintro rfl
    exact hdead (.free hfree)
  | give p q hheld hkept hrun _ howner _ _ =>
    apply howner
    rintro rfl
    exact hdead (.running hheld hkept hrun)
  | lose p q _ _ howner _ _ => exact howner r

/-- Every resource stays live if nothing is lost and nobody begins to wait with a resource in
its hands. -/
theorem keeps_live (h : Change g g') (hlost : ∀ r, g'.lost r → g.lost r)
    (hrunning : ∀ p r, g.waits p = none → g'.owner r = some p → g'.waits p = none)
    (hlive : g.Live r) : g'.Live r := by
  have hkeep : ∀ {r}, ¬ g.lost r → ¬ g'.lost r := fun hkept hl => hkept (hlost _ hl)
  cases h with
  | stay howner hwaits _ | lose _ _ _ _ howner hwaits _ =>
    induction hlive with
    | free hfree => exact .free (by rwa [howner])
    | held ho hkept _ ih =>
      exact .held (by rwa [howner]) (hkeep hkept) fun q hq => ih q (by rwa [← hwaits])
  | ask p hrun howner hwaits _ =>
    induction hlive with
    | free hfree => exact .free (by rwa [howner])
    | @held r p' ho hkept _ ih =>
      rw [← howner] at ho
      by_cases hp : p' = p
      · exact .running ho (hkeep hkept) (hrunning p' r (by rwa [hp]) ho)
      · exact .held ho (hkeep hkept) fun q hq => ih q (by rwa [← hwaits p' hp])
  | take p q hwait hfree hself howner hrun hwaits _ =>
    have hq : g'.Live q := by
      refine .running hself (fun hl => ?_) hrun
      exact g.owner_of_lost q (hlost q hl) hfree
    induction hlive with
    | @free r hfree' =>
      by_cases hr : r = q
      · rwa [hr]
      · exact .free (by rwa [howner r hr])
    | @held r p' ho hkept _ ih =>
      by_cases hr : r = q
      · rwa [hr]
      · rw [← howner r hr] at ho
        by_cases hp : p' = p
        · exact .running ho (hkeep hkept) (by rwa [hp])
        · exact .held ho (hkeep hkept) fun q' hq' => ih q' (by rwa [← hwaits p' hp])
  | give p q hheld _ hrun hself howner hwaits _ =>
    induction hlive with
    | @free r hfree =>
      by_cases hr : r = q
      · exact .free (by rwa [hr])
      · exact .free (by rwa [howner r hr])
    | @held r p' ho hkept _ ih =>
      by_cases hr : r = q
      · exact .free (by rwa [hr])
      · rw [← howner r hr] at ho
        by_cases hp : p' = p
        · exact .running ho (hkeep hkept) (hrunning p' r (by rwa [hp]) ho)
        · exact .held ho (hkeep hkept) fun q' hq' => ih q' (by rwa [← hwaits p' hp])

/-- A process that waits goes on to wait, or gets what it waits for, which was free. -/
theorem still_waits (h : Change g g') (hwait : g.waits p = some q) :
    g'.waits p = some q ∨ g.owner q = none ∧ g'.waits p = none := by
  have hne : ∀ {p'}, g.waits p' = none → p ≠ p' := by
    rintro p' hrun rfl
    rw [hwait] at hrun
    cases hrun
  cases h with
  | stay _ hwaits _ | lose _ _ _ _ _ hwaits _ => exact .inl (by rwa [hwaits])
  | ask p' hrun _ hwaits _ => exact .inl (by rwa [hwaits p (hne hrun)])
  | take p' q' hwait' hfree _ _ hrun hwaits _ =>
    by_cases hp : p = p'
    · subst hp
      rw [hwait] at hwait'
      obtain rfl : q = q' := Option.some.inj hwait'
      exact .inr ⟨hfree, hrun⟩
    · exact .inl (by rwa [hwaits p hp])
  | give p' q' _ _ hrun _ _ hwaits _ => exact .inl (by rwa [hwaits p (hne hrun)])

/-- Meanwhile it keeps what it owns. -/
theorem waiting (h : Change g g') (hwait : g.waits p = some q)
    (hkept : g.owner r = some p ∧ ¬ g.lost r) : g'.owner r = some p ∧ ¬ g'.lost r := by
  obtain ⟨howner, hkept⟩ := hkept
  have hne : ∀ {q'}, g.owner q' = some p → ∀ {p'}, g.waits p' = none → g.owner q' ≠ some p' := by
    rintro q' hq' p' hrun hp'
    rw [hq'] at hp'
    rw [← Option.some.inj hp', hwait] at hrun
    cases hrun
  cases h with
  | stay ho _ hl => exact ⟨by rwa [ho], by rwa [hl]⟩
  | ask p' hrun ho _ hl => exact ⟨by rwa [ho], by rwa [hl]⟩
  | take p' q' _ hfree _ ho _ _ hl =>
    have hr : r ≠ q' := by
      rintro rfl
      rw [howner] at hfree
      cases hfree
    exact ⟨by rwa [ho r hr], by rwa [hl]⟩
  | give p' q' hheld _ hrun _ ho _ hl =>
    have hr : r ≠ q' := by
      rintro rfl
      exact hne howner hrun hheld
    exact ⟨by rwa [ho r hr], by rwa [hl]⟩
  | lose p' q' hheld hrun ho _ hl =>
    have hr : r ≠ q' := by
      rintro rfl
      exact hne howner hrun hheld
    exact ⟨by rwa [ho], by simp [hl, hr, hkept]⟩

end Change

/-! ## Machines -/

variable {S : Type w} {L : Type x}

/-- A step that leaves live what was live. -/
def Calm (step : S → L → Option S) (view : S → WaitGraph P R) (s t : S) : Prop :=
  ∃ l, step s l = some t ∧ ∀ r, (view s).Live r → (view t).Live r

/-- The steps of a machine are steps of its graph, a process can take what it waits for when it is
free, and a process that does not wait can give back what it owns. -/
structure Shares (step : S → L → Option S) (view : S → WaitGraph P R) (I : S → Prop) : Prop where
  inv : ∀ {s l t}, I s → step s l = some t → I t
  change : ∀ {s l t}, I s → step s l = some t → Change (view s) (view t)
  take : ∀ {s p q}, I s → (view s).waits p = some q → (view s).owner q = none →
    ∃ t, Calm step view s t ∧ (view t).waits p = none
  give : ∀ {s p r}, I s → (view s).owner r = some p → (view s).waits p = none →
    ¬ (view s).lost r → ∃ t, ReflTransGen (Calm step view) s t ∧ (view t).owner r = none

namespace Shares

variable {step : S → L → Option S} {view : S → WaitGraph P R} {I : S → Prop} {s t : S}

theorem exec_of_calm (h : ReflTransGen (Calm step view) s t) : ∃ ls, exec step s ls = some t := by
  induction h using ReflTransGen.head_induction_on with
  | refl => exact ⟨[], rfl⟩
  | head hcalm _ ih =>
    obtain ⟨l, hl, _⟩ := hcalm
    obtain ⟨ls, hls⟩ := ih
    exact ⟨l :: ls, exec_cons_iff.mpr ⟨_, hl, hls⟩⟩

theorem calm_live (h : ReflTransGen (Calm step view) s t) (hlive : (view s).Live r) :
    (view t).Live r := by
  induction h with
  | refl => exact hlive
  | tail _ hcalm ih =>
    obtain ⟨_, _, hkeep⟩ := hcalm
    exact hkeep r ih

variable (h : Shares step view I)
include h

theorem calm_inv (hI : I s) (hrun : ReflTransGen (Calm step view) s t) : I t := by
  induction hrun with
  | refl => exact hI
  | tail _ hcalm ih =>
    obtain ⟨_, hl, _⟩ := hcalm
    exact h.inv ih hl

/-- Along a calm run a process that waits goes on to wait, or gets what it waits for on the way.
What does not change while it waits is still so then. -/
theorem waits_until {K : WaitGraph P R → Prop}
    (hK : ∀ {g g'}, Change g g' → g.waits p = some q → K g → K g') (hI : I s)
    (hrun : ReflTransGen (Calm step view) s t) (hwait : (view s).waits p = some q) (hs : K (view s)) :
    ∃ u, ReflTransGen (Calm step view) s u ∧ K (view u) ∧
      ((view u).waits p = none ∨ u = t ∧ (view u).waits p = some q) := by
  induction hrun with
  | refl => exact ⟨s, .refl, hs, .inr ⟨rfl, hwait⟩⟩
  | @tail v t hsv hcalm ih =>
    obtain ⟨u, hsu, hu, hru | ⟨rfl, hwu⟩⟩ := ih
    · exact ⟨u, hsu, hu, .inl hru⟩
    · obtain ⟨l, hl, _⟩ := id hcalm
      have hc := h.change (h.calm_inv hI hsv) hl
      refine ⟨t, hsv.tail hcalm, hK hc hwu hu, ?_⟩
      rcases hc.still_waits hwu with hwt | ⟨_, hrt⟩
      · exact .inr ⟨rfl, hwt⟩
      · exact .inl hrt

/-- A live resource becomes free in steps that leave live what was live. -/
theorem frees (hI : I s) (hlive : (view s).Live r) :
    ∃ t, ReflTransGen (Calm step view) s t ∧ (view t).owner r = none := by
  induction hlive with
  | free hfree => exact ⟨s, .refl, hfree⟩
  | @held r p howner hkept _ ih =>
    cases hwait : (view s).waits p with
    | none => exact h.give hI howner hwait hkept
    | some q =>
      obtain ⟨t, hst, hfree⟩ := ih q hwait
      obtain ⟨u, hsu, ⟨hou, hku⟩, hu⟩ := h.waits_until (K := fun g => g.owner r = some p ∧ ¬ g.lost r)
        Change.waiting hI hst hwait ⟨howner, hkept⟩
      have hIu := h.calm_inv hI hsu
      rcases hu with hrun | ⟨rfl, hwu⟩
      · obtain ⟨v, huv, hv⟩ := h.give hIu hou hrun hku
        exact ⟨v, hsu.trans huv, hv⟩
      · -- `q` is free and `p` still waits for it
        obtain ⟨v, huv, hrun⟩ := h.take hIu hwu hfree
        obtain ⟨l, hl, _⟩ := id huv
        obtain ⟨hov, hkv⟩ := (h.change hIu hl).waiting hwu ⟨hou, hku⟩
        obtain ⟨x, hvx, hx⟩ := h.give (h.inv hIu hl) hov hrun hkv
        exact ⟨x, (hsu.tail huv).trans hvx, hx⟩

/-- A resource that is not live stays with its owner for good. -/
theorem stays (hI : I s) (hdead : ¬ (view s).Live r) {ls : List L} (hrun : exec step s ls = some t) :
    ¬ (view t).Live r ∧ (view t).owner r = (view s).owner r := by
  refine (exec_invariant (I := fun t => I t ∧ ¬ (view t).Live r ∧
    (view t).owner r = (view s).owner r) ?_ ⟨hI, hdead, rfl⟩ hrun).2
  rintro u l v ⟨hIu, hdu, hou⟩ hl
  have hc := h.change hIu hl
  exact ⟨h.inv hIu hl, fun hv => hdu (hc.live hv), (hc.owner_of_not_live hdu).trans hou⟩

/-- The live resources are those that can become free again. -/
theorem live_iff (hI : I s) :
    (view s).Live r ↔ ∃ ls t, exec step s ls = some t ∧ (view t).owner r = none := by
  constructor
  · intro hlive
    obtain ⟨t, hcalm, hfree⟩ := h.frees hI hlive
    obtain ⟨ls, hls⟩ := exec_of_calm hcalm
    exact ⟨ls, t, hls, hfree⟩
  · rintro ⟨ls, t, hrun, hfree⟩
    by_contra hdead
    obtain ⟨p, hp⟩ := exists_owner hdead
    rw [(h.stays hI hdead hrun).2, hp] at hfree
    cases hfree

/-- A process that waits for a resource that is not live waits for good. -/
theorem waits_on (hI : I s) (hwait : (view s).waits p = some q) (hdead : ¬ (view s).Live q)
    {ls : List L} (hrun : exec step s ls = some t) : (view t).waits p = some q := by
  refine (exec_invariant (I := fun t => I t ∧ ¬ (view t).Live q ∧ (view t).waits p = some q) ?_
    ⟨hI, hdead, hwait⟩ hrun).2.2
  rintro u l v ⟨hIu, hdu, hwu⟩ hl
  have hc := h.change hIu hl
  refine ⟨h.inv hIu hl, fun hv => hdu (hc.live hv), ?_⟩
  rcases hc.still_waits hwu with hwv | ⟨hfree, _⟩
  · exact hwv
  · exact absurd (.free hfree) hdu

/-- A process that waits can get on exactly if what it waits for is live. -/
theorem served_iff (hI : I s) (hwait : (view s).waits p = some q) :
    (∃ ls t, exec step s ls = some t ∧ (view t).waits p = none) ↔ (view s).Live q := by
  constructor
  · rintro ⟨ls, t, hrun, hnone⟩
    by_contra hdead
    rw [h.waits_on hI hwait hdead hrun] at hnone
    cases hnone
  · intro hlive
    obtain ⟨t, hst, hfree⟩ := h.frees hI hlive
    obtain ⟨u, hsu, _, hu⟩ := h.waits_until (K := fun _ => True) (fun _ _ _ => trivial) hI hst hwait
      trivial
    rcases hu with hrun | ⟨rfl, hwu⟩
    · obtain ⟨ls, hls⟩ := exec_of_calm hsu
      exact ⟨ls, u, hls, hrun⟩
    · obtain ⟨v, huv, hrun⟩ := h.take (h.calm_inv hI hsu) hwu hfree
      obtain ⟨ls, hls⟩ := exec_of_calm (hsu.tail huv)
      exact ⟨ls, v, hls, hrun⟩

end Shares

end WaitGraph

end JitDt
