import Mathlib.Computability.StateTransition

/-!
# Programs that run until they stop

A program is a partial function on its states that is undefined where the program has stopped.
A run that reaches a stopped state is finite; one that stays within states that all go on
is not.
-/

namespace JitDt.Halting

set_option autoImplicit false

open StateTransition (Reaches eval mem_eval reaches_eval)

universe u
variable {State : Type u} {f : State → Option State} {s t : State}

def Halts (f : State → Option State) (s : State) : Prop := (eval f s).Dom

theorem halts_iff : Halts f s ↔ ∃ t, Reaches f s t ∧ f t = none := by
  constructor
  · intro h
    obtain ⟨t, ht⟩ := Part.dom_iff_mem.mp h
    exact ⟨t, mem_eval.mp ht⟩
  · rintro ⟨t, hreach, hstop⟩
    exact Part.dom_iff_mem.mpr ⟨t, mem_eval.mpr ⟨hreach, hstop⟩⟩

theorem halts_congr (h : Reaches f s t) : Halts f s ↔ Halts f t := by
  unfold Halts
  rw [reaches_eval h]

theorem reaches_single (h : f s = some t) : Reaches f s t := Relation.ReflTransGen.single h

theorem reaches_head {u : State} (h : f s = some t) (hrest : Reaches f t u) : Reaches f s u :=
  Relation.ReflTransGen.head h hrest

theorem reaches_trans {u : State} (h : Reaches f s t) (hrest : Reaches f t u) : Reaches f s u :=
  Relation.ReflTransGen.trans h hrest

theorem reaches_invariant {I : State → Prop} (hstep : ∀ {s t}, I s → f s = some t → I t) (hs : I s)
    (h : Reaches f s t) : I t := by
  induction h with
  | refl => exact hs
  | tail _ hstep' ih => exact hstep ih hstep'

/-- Where an invariant guarantees a next step, the program runs for ever. -/
theorem not_halts_of_invariant {I : State → Prop} (hstep : ∀ {s}, I s → ∃ t, f s = some t ∧ I t)
    (hs : I s) : ¬ Halts f s := by
  intro h
  obtain ⟨t, hreach, hstop⟩ := halts_iff.mp h
  have hkeep : ∀ {s t}, I s → f s = some t → I t := by
    intro s t hI hst
    obtain ⟨u, hu, hIu⟩ := hstep hI
    rw [hst] at hu
    rwa [Option.some.inj hu]
  obtain ⟨u, hu, _⟩ := hstep (reaches_invariant hkeep hs hreach)
  rw [hstop] at hu
  cases hu

end JitDt.Halting
