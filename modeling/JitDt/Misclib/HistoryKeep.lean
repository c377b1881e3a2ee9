import JitDt.Misclib.HistoryQueue

/-!
# The files a removal takes

`_histremove` clears the slot `KEEP_FILE_COUNT` behind the consumer it has just moved.
In absolute positions the released entries are those below `C`, and the cleared slot is
that of `C - 3`, or of `C - 3 + nhist` in the ring: behind the waiting entries and the
two released last, whether the client or the producer asked for the removal.
-/

namespace JitDt.Misclib

set_option autoImplicit false

open RingIndex Machine

/-- The slots `conshistp .. prodhistp`, still to be handed out. -/
def Ring.waiting (r : Ring) : List Nat :=
  (List.range r.numhist.toNat).map fun k => (r.conshistp + k) % r.nhist

/-- The ring on which a call runs `_histremove`, if it does. -/
def removing (r : Ring) : HistOp → Option Ring
  | .put _ dt tent => if Forces r dt tent then some r.advanced else none
  | .get => none
  | .remove => some r

def releases (r : Ring) (op : HistOp) : List Nat := ((removing r op).map Ring.conshistp).toList

/-- The slots the consumer left in a sequence of calls, the last one at the end. -/
def released (r : Ring) (ops : List HistOp) : List Nat := collect histStep releases r ops

/-- The files of slot `v`, and no others, are unlinked and forgotten. -/
structure Clears (r r' : Ring) (v : Nat) : Prop where
  unlinked : r'.unlinked = r.unlinked ++ (r.history v).files
  gone : (r'.history v).files = []
  others : ∀ i, i ≠ v → r'.history i = r.history i

theorem clears_removed (r : Ring) : Clears r r.removed r.rmhistp where
  unlinked := rfl
  gone := by simp [Ring.removed, HistData.files]
  others := fun i hi => Function.update_of_ne hi _ _

namespace ConsumerAt

variable {r : Ring} {C : Nat}

/-- The waiting entries end before the cleared slot comes round again. -/
theorem rmhistp_notMem_waiting (h : ConsumerAt r C)
    (hnum : r.numhist - 1 ≤ r.nhist - keepFileCount) : r.rmhistp ∉ r.removed.waiting := by
  intro hmem
  obtain ⟨k, hk, heq⟩ := List.mem_map.mp hmem
  have hk' : k < (r.numhist - 1).toNat := List.mem_range.mp hk
  have hsize := h.size
  have hcons : r.removed.conshistp = (C + 1) % r.nhist := by
    show updatePointer r.nhist r.conshistp = _
    rw [h.cons]
    exact next_mod r.nhist C
  have hslot : (C + 1 + k) % r.nhist = (C + 1 + (r.nhist - keepFileCount)) % r.nhist := by
    rw [← h.rmhistp_eq, ← heq, hcons]
    exact (window_mod r.nhist (C + 1) k).symm
  refine mod_ne_of_lt ?_ ?_ hslot
  · omega
  · unfold keepFileCount at *
    omega

/-- The two entries released last have the positions `C - 1` and `C`. -/
theorem rmhistp_notMem_recent (h : ConsumerAt r C) {rel : List Nat}
    (hrel : rel = (List.range C).map (· % r.nhist)) :
    r.rmhistp ∉ (rel ++ [r.conshistp]).rtake 2 := by
  have hall : rel ++ [r.conshistp] = (List.range (C + 1)).map (· % r.nhist) := by
    rw [hrel, h.cons, List.range_succ, List.map_append]
    rfl
  rw [hall]
  intro hmem
  unfold List.rtake at hmem
  rw [← List.map_drop] at hmem
  obtain ⟨a, ha, heq⟩ := List.mem_map.mp hmem
  simp only [List.length_map, List.length_range, List.mem_drop_iff_getElem, List.getElem_range] at ha
  obtain ⟨i, hi, rfl⟩ := ha
  have hsize := h.size
  rw [h.rmhistp_eq] at heq
  unfold keepFileCount at *
  apply mod_ne_of_lt _ _ heq
  · omega
  · omega

theorem total (h : ConsumerAt r C) (hn : r.nhist ≤ maxHistory) :
    _histremove r = some r.removed := by
  have hpos : 0 < r.nhist := by
    have := h.size
    omega
  have hcons := Nat.mod_lt C hpos
  have hrm : r.rmhistp < r.nhist := Nat.mod_lt _ hpos
  refine histremove_iff.mpr ⟨?_, by omega, rfl⟩
  rw [h.cons]
  omega

end ConsumerAt

/-! ## The released slots along a run -/

theorem removing_put {r q : Ring} {path : Path} {dt : Int64} {tent : Int}
    (h : removing r (.put path dt tent) = some q) : Forces r dt tent ∧ q = r.advanced := by
  simp only [removing] at h
  split at h
  · rename_i hf
    exact ⟨hf, (Option.some.inj h).symm⟩
  · cases h

/-- A ring that `_histremove` runs on has the consumer's position, and room for one more. -/
theorem At.removing {r q : Ring} {P C : Nat} {op : HistOp} (h : At r P C)
    (hq : Misclib.removing r op = some q) :
    ConsumerAt q C ∧ q.numhist - 1 ≤ q.nhist - keepFileCount := by
  have hle := h.num_le
  cases op with
  | put path dt tent =>
    obtain ⟨_, rfl⟩ := removing_put hq
    refine ⟨⟨h.size, h.cons⟩, ?_⟩
    show r.numhist + 1 - 1 ≤ _
    simp only [Ring.advanced]
    omega
  | get => cases hq
  | remove =>
    obtain rfl : r = q := Option.some.inj hq
    exact ⟨⟨h.size, h.cons⟩, by omega⟩

/-- The consumer has left the slots of the positions below its own. -/
structure Passed (r₀ : Ring) (ops : List HistOp) (r : Ring) (C : Nat) : Prop where
  pos : ∃ P, At r P C
  slots : released r₀ ops = (List.range C).map (· % r.nhist)

theorem Passed.step {r₀ r r' : Ring} {ops : List HistOp} {op : HistOp} {C : Nat}
    (h : Passed r₀ ops r C) (hr : exec histStep r₀ ops = some r) (hstep : histStep r op = some r') :
    ∃ C', Passed r₀ (ops ++ [op]) r' C' := by
  obtain ⟨P, hat⟩ := h.pos
  have hn := histStep_nhist hstep
  have hrel : released r₀ (ops ++ [op]) = (List.range C).map (· % r.nhist) ++ releases r op := by
    rw [← h.slots]
    exact collect_snoc hr
  have hnext : (List.range C).map (· % r'.nhist) ++ [r.conshistp] =
      (List.range (C + 1)).map (· % r'.nhist) := by
    rw [List.range_succ, List.map_append, hat.cons, hn]
    rfl
  cases op with
  | put path dt tent =>
    obtain ⟨P', hat'⟩ := hat.histput hstep
    refine ⟨_, ⟨P', hat'⟩, ?_⟩
    rw [hrel, ← hn]
    by_cases hf : Forces r dt tent
    · rw [if_pos hf, ← hnext]
      simp [releases, removing, hf, Ring.advanced]
    · rw [if_neg hf]
      simp [releases, removing, hf]
  | get =>
    obtain rfl := histStep_get hstep
    refine ⟨C, ⟨P, hat⟩, ?_⟩
    rw [hrel]
    simp [releases, removing]
  | remove =>
    obtain ⟨_, _, rfl⟩ := histremove_iff.mp hstep
    refine ⟨C + 1, ⟨P, hat.removed⟩, ?_⟩
    rw [hrel, ← hn, ← hnext]
    rfl

theorem exec_passed {nh : Int} {ops : List HistOp} {r : Ring}
    (h : exec histStep (histinit nh .static) ops = some r) :
    ∃ C, Passed (histinit nh .static) ops r C :=
  exec_invariant_past (I := fun ops r => ∃ C, Passed (histinit nh .static) ops r C)
    ⟨0, ⟨0, at_histinit nh⟩, rfl⟩ (fun hr ⟨_, hC⟩ hstep => hC.step hr hstep) h

/-- What a step with a removal unlinks is what the removal unlinks. -/
theorem unlinked_removing {r r' q : Ring} {op : HistOp} (hq : removing r op = some q)
    (hstep : histStep r op = some r') : r'.unlinked = q.removed.unlinked := by
  cases op with
  | put path dt tent =>
    obtain ⟨hf, rfl⟩ := removing_put hq
    cases histput_cases hstep with
    | refused ht _ => exact absurd ht hf.1
    | same t ht hp hd h' => exact absurd hf.2.1 (by omega)
    | new t ht hp hd hin h' =>
      rw [h']
      show r.roomy.unlinked = _
      rw [Ring.roomy, if_pos hf.2.2]
    | late t ht i hi hd hdi hs h' => exact absurd hf.2.1 (by omega)
    | lost ht hd hs h' => exact absurd hf.2.1 (by omega)
  | get => cases hq
  | remove =>
    obtain rfl : r = q := Option.some.inj hq
    obtain ⟨_, _, rfl⟩ := histremove_iff.mp hstep
    rfl

/-- Whatever calls came before, a removal takes the files of one slot, which is none of
the slots that still wait after it and none of the two released last, the one it
releases itself included. -/
theorem removal_spares_kept {nh : Int} (hn : (histinit nh .static).nhist ≤ maxHistory)
    {ops : List HistOp} {op : HistOp} {r q : Ring}
    (hops : Along histStep Allowed (histinit nh .static) (ops ++ [op]))
    (hr : exec histStep (histinit nh .static) ops = some r) (hq : removing r op = some q) :
    ∃ q' r' v, _histremove q = some q' ∧ histStep r op = some r' ∧
      r'.unlinked = q'.unlinked ∧ Clears q q' v ∧ v ∉ q'.waiting ∧
      v ∉ (released (histinit nh .static) ops ++ [q.conshistp]).rtake 2 := by
  obtain ⟨C, hpassed⟩ := exec_passed hr
  obtain ⟨P, hat⟩ := hpassed.pos
  obtain ⟨hcons, hnum⟩ := hat.removing hq
  obtain ⟨r', hr', _⟩ := exec_refines hn hops
  obtain ⟨u, hu, hstep⟩ := exec_snoc_iff.mp hr'
  obtain rfl : r = u := Option.some.inj (hr.symm.trans hu)
  have hsize : q.nhist = r.nhist := by
    cases op with
    | put path dt tent =>
      obtain ⟨_, rfl⟩ := removing_put hq
      rfl
    | get => cases hq
    | remove =>
      obtain rfl : r = q := Option.some.inj hq
      rfl
  obtain ⟨r₁, hr₁, hsmall, _⟩ := exec_refines hn ((along_append_iff hr).mp hops).1
  obtain rfl : r = r₁ := Option.some.inj (hr.symm.trans hr₁)
  refine ⟨_, r', q.rmhistp, hcons.total (by omega), hstep, unlinked_removing hq hstep,
    clears_removed q, hcons.rmhistp_notMem_waiting hnum, ?_⟩
  apply hcons.rmhistp_notMem_recent
  rw [hpassed.slots, hsize]

/-- On a ring of five slots the file of date 40 forces the entry of date 20 out. -/
theorem removal_spares_kept_five :
    ∃ r q q' v, exec histStep (histinit 5 .static)
        [.put ⟨[97], by decide⟩ 10 0, .remove, .put ⟨[98], by decide⟩ 20 0,
          .put ⟨[99], by decide⟩ 30 0] = some r ∧
      removing r (.put ⟨[100], by decide⟩ 40 0) = some q ∧ _histremove q = some q' ∧
      v ∉ q'.waiting := by
  obtain ⟨q', r', v, hq', _, _, _, hv, _⟩ := @removal_spares_kept 5 (by decide)
    [.put ⟨[97], by decide⟩ 10 0, .remove, .put ⟨[98], by decide⟩ 20 0,
      .put ⟨[99], by decide⟩ 30 0] (.put ⟨[100], by decide⟩ 40 0) _ _ (by decide) rfl rfl
  exact ⟨_, _, q', v, rfl, rfl, hq', hv⟩

end JitDt.Misclib
