import JitDt.Lwatcher.Window

/-!
# The files of the entry being sent

`_histremove` clears the slot `keepFileCount` behind the consumer. Seen from the
entry that `histget` handed out, the first two forced removals of a window clear
slots before it and the third one clears the entry itself.
-/

namespace JitDt.Lwatcher

set_option autoImplicit false

open Misclib Jitcclient Machine RingIndex

/-- A step leaves slot `hp` its date and clears none of its files. -/
structure Stable (r r' : Ring) (hp : Nat) : Prop where
  date : r'.date hp = r.date hp
  kept : ∀ t p, (r.history hp).fname t = some p → ∃ q, (r'.history hp).fname t = some q

theorem Stable.of_history {r r' : Ring} {hp : Nat} (h : r'.history hp = r.history hp) :
    Stable r r' hp where
  date := by rw [Ring.date, h]; rfl
  kept := by
    intro t p hp'
    rw [h]
    exact ⟨p, hp'⟩

theorem stable_store (r : Ring) (i : Nat) (u : Fin fnameMax) (cp : Path) (hp : Nat) :
    Stable r (r.store i u cp).signal hp where
  date := date_store r i hp u cp
  kept := by
    intro t p hf
    by_cases hi : hp = i
    · subst hi
      by_cases ht : t = u
      · subst ht
        exact ⟨cp, by simp [Ring.signal, Ring.store, Ring.withEntry]⟩
      · exact ⟨p, by simpa [Ring.signal, Ring.store, Ring.withEntry, ht] using hf⟩
    · exact ⟨p, by simpa [Ring.signal, Ring.store, Ring.withEntry, hi] using hf⟩

theorem history_opened_other {r : Ring} {d j : Nat} {t : Fin fnameMax} {cp : Path}
    (hj : j ≠ nextEntry r) : (r.opened d t cp).history j = r.roomy.history j := by
  simp [Ring.opened, Ring.withEntry, hj]

theorem history_roomy_other {r : Ring} {j : Nat} (hj : r.Full → j ≠ r.advanced.rmhistp) :
    r.roomy.history j = r.history j := by
  unfold Ring.roomy
  split
  · rename_i hf
    simp [Ring.removed, hj hf]
    rfl
  · rfl

namespace Sent

variable {hp d C f P : Nat} {r r' : Ring}

/-- The slot cleared by the forced removal number `f + 1`. -/
theorem rmhistp_eq_iff (h : Sent hp d C f r P) (hf : f ≤ 2) : hp = r.advanced.rmhistp ↔ f = 2 := by
  have hsize := h.pos.size
  rw [h.pos.rmhistp_advanced, h.slot]
  unfold keepFileCount at *
  constructor
  · intro heq
    by_contra hne
    exact mod_ne_of_lt (a := C) (b := C + f + 1 + (r.nhist - 3)) (n := r.nhist) (by omega)
      (by omega) heq
  · rintro rfl
    rw [show C + 2 + 1 + (r.nhist - 3) = C + r.nhist by omega, Nat.add_mod_right]

theorem put_stable (h : Sent hp d C f r P) {path : Path} {dt : Int64} {tent : Int}
    (hput : histput path dt tent r = some r')
    (hf : (if Forces r dt tent then f + 1 else f) ≤ 2) : Stable r r' hp := by
  cases histput_cases hput with
  | refused _ h' => exact .of_history (by rw [h'])
  | same t _ _ _ h' =>
    subst h'
    exact stable_store r _ t path hp
  | new t ht _ hd _ h' =>
    subst h'
    have hle : f ≤ 2 := by
      split at hf <;> omega
    refine .of_history ((history_opened_other (h.slot_ne_nextEntry hle)).trans ?_)
    refine history_roomy_other fun hfull heq => ?_
    have hforces : Forces r dt tent := by
      have := t.isLt
      exact ⟨by omega, hd, hfull⟩
    rw [if_pos hforces] at hf
    have := (h.rmhistp_eq_iff hle).mp heq
    omega
  | late t _ i _ _ _ _ h' =>
    subst h'
    exact stable_store r i t path hp
  | lost _ _ _ h' => exact .of_history (by rw [h'])

theorem put_clears (h : Sent hp d C 2 r P) {path : Path} {dt : Int64} {tent : Int}
    (hput : histput path dt tent r = some r') (hforces : Forces r dt tent) (t : Fin fnameMax) :
    (r'.history hp).fname t = none := by
  cases histput_cases hput with
  | refused ht _ => exact absurd ht hforces.1
  | same _ _ _ hd _ => exact absurd hforces.2.1 (by rw [hd]; exact lt_irrefl _)
  | new u _ _ _ _ h' =>
    subst h'
    have hslot := h.slot_ne_nextEntry (le_refl 2)
    show ((r.opened (ull dt) u path).history hp).fname t = none
    rw [history_opened_other hslot, Ring.roomy, if_pos hforces.2.2]
    have hrm := (h.rmhistp_eq_iff (le_refl 2)).mpr rfl
    simp [Ring.removed, hrm]
  | late _ _ _ _ hd _ _ _ => exact absurd hforces.2.1 (Nat.lt_asymm hd)
  | lost _ hd _ _ => exact absurd hforces.2.1 (Nat.lt_asymm hd)

end Sent

/-- The entry being sent is stable as long as fewer than `keepFileCount` puts of the
window forced a removal: no step clears one of its files or changes its date. The
forced removal number `keepFileCount` clears it. -/
theorem sent_entry_stable {nh : Int} {sn : Nat} {pre mid : List Label} {s s₁ t t' : State}
    {l l' : Label} {req : Request} {hp : Nat}
    (hpre : exec step (init nh sn) pre = some s) (hget : Handed s l s₁ req hp)
    (hmid : exec step s₁ mid = some t) (hstep : step t l' = some t')
    (hwin : ∀ l ∈ mid ++ [l'], l.InWindow) :
    (countAlong step Forcing s₁ (mid ++ [l']) < keepFileCount → Stable t.ring t'.ring hp) ∧
    (countAlong step Forcing s₁ mid + 1 = keepFileCount → Forcing t l' →
      ∀ u, (t'.ring.history hp).fname u = none) := by
  obtain ⟨C, P, hS⟩ := hget.run hpre hmid fun l hl => hwin l (List.mem_append_left _ hl)
  rw [countAlong_snoc hmid]
  unfold keepFileCount
  cases step_effect hstep with
  | histput path dt tent hl hput _ _ =>
    subst hl
    constructor
    · intro hlt
      refine hS.put_stable hput ?_
      by_cases hf : Forces t.ring dt tent
      · have hF : Forcing t (.histput path dt tent) := hf
        rw [if_pos hF] at hlt
        rw [if_pos hf]
        omega
      · have hF : ¬ Forcing t (.histput path dt tent) := hf
        rw [if_neg hF] at hlt
        rw [if_neg hf]
        omega
    · intro hcount hf
      obtain hcount : countAlong step Forcing s₁ mid = 2 := by omega
      rw [hcount] at hS
      exact hS.put_clears hput hf
  | histremove hl _ _ =>
    subst hl
    exact (hwin .histremove (by simp)).elim
  | getReply files heap sent opt hp' hl _ hr _ =>
    subst hl
    exact ⟨fun _ => .of_history (by rw [hr]), fun _ hf => hf.elim⟩
  | quiet hput _ _ hsame _ =>
    refine ⟨fun _ => .of_history (by rw [hsame.history]), fun _ hf => ?_⟩
    cases l' with
    | histput path dt tent => exact absurd rfl (hput path dt tent)
    | _ => exact hf.elim

theorem sent_entry_stable_one :
    ∃ t t', exec step (init 5 1) [.histput ⟨[97], by decide⟩ 1 0, .histput ⟨[98], by decide⟩ 2 0,
        .accept 3, .command .get ![8, 0, 0], .histget, .test] = some t ∧
      step t (.histput ⟨[99], by decide⟩ 3 0) = some t' ∧ Stable t.ring t'.ring 0 := by
  refine ⟨_, _, rfl, rfl, ?_⟩
  exact (@sent_entry_stable 5 1
    [.histput ⟨[97], by decide⟩ 1 0, .histput ⟨[98], by decide⟩ 2 0, .accept 3,
      .command .get ![8, 0, 0]]
    [.test] _ _ _ _ .histget (.histput ⟨[99], by decide⟩ 3 0) (.get ![8, 0, 0]) 0 rfl
    ⟨rfl, Or.inl rfl, rfl⟩ rfl rfl (by simp [Label.InWindow])).1 (by decide)

/-- Three newer dates arrive while the entry of date 1 is being sent from slot 0. -/
theorem sent_entry_cleared :
    let mid : List Label := [.test, .histput ⟨[99], by decide⟩ 3 0, .histput ⟨[100], by decide⟩ 4 0]
    let last : Label := .histput ⟨[101], by decide⟩ 5 0
    ∃ s s₁ t t', exec step (init 5 1) [.histput ⟨[97], by decide⟩ 1 0,
        .histput ⟨[98], by decide⟩ 2 0, .accept 3, .command .get ![8, 0, 0]] = some s ∧
      Handed s .histget s₁ (.get ![8, 0, 0]) 0 ∧ exec step s₁ mid = some t ∧
      step t last = some t' ∧ (∀ l ∈ mid ++ [last], l.InWindow) ∧
      (t.ring.history 0).fname 0 = some ⟨[97], by decide⟩ ∧ (t'.ring.history 0).fname 0 = none ∧
      ¬ Stable t.ring t'.ring 0 := by
  refine ⟨_, _, _, _, rfl, ⟨rfl, Or.inl rfl, rfl⟩, rfl, rfl, by simp [Label.InWindow], rfl, rfl,
    fun h => ?_⟩
  obtain ⟨q, hq⟩ := h.kept 0 ⟨[97], by decide⟩ (by decide)
  cases hq

end JitDt.Lwatcher
