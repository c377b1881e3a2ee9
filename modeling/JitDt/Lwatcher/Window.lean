import JitDt.Lwatcher.System
import JitDt.Misclib.HistoryQueue

/-!
# The entry between `histget` and `histremove`

While the transfer thread reads and sends the entry it got, the watcher may put any
number of files. A put that finds the ring full drops the oldest entry. What the
thread relies on is told by the number of such forced removals: none, and the entry
it acknowledges is the one it sent; at most two, and the files of the entry stay.
-/

namespace JitDt.Lwatcher

set_option autoImplicit false

open Misclib Jitcclient Machine RingIndex

/-- The watcher makes the ring drop its oldest entry. -/
def Forcing (s : State) : Label → Prop
  | .histput _ dt tent => Forces s.ring dt tent
  | _ => False

instance (s : State) (l : Label) : Decidable (Forcing s l) :=
  match l with
  | .histput _ dt tent => inferInstanceAs (Decidable (Forces s.ring dt tent))
  | .accept _ => isFalse id
  | .command _ _ => isFalse id
  | .histget => isFalse id
  | .histgetWake => isFalse id
  | .test => isFalse id
  | .histwait => isFalse id
  | .histwaitWake => isFalse id
  | .openReply _ => isFalse id
  | .getReply _ _ _ => isFalse id
  | .histremove => isFalse id

/-- The labels between the `histget` of a request and its `histremove`: no other
`histget`, no `histremove`, the same connection. -/
def Label.InWindow : Label → Prop
  | .histget => False
  | .histgetWake => False
  | .histremove => False
  | .accept _ => False
  | _ => True

/-- `histget` has just handed out slot `hp` for the request `req`. -/
structure Handed (s : State) (l : Label) (s' : State) (req : Request) (hp : Nat) : Prop where
  taken : step s l = some s'
  label : l = .histget ∨ l = .histgetWake
  pc : s'.pc = .test req hp

/-- Both ways into `histget` end in one on some ring. -/
theorem step_histget {s s' : State} {l : Label} (hl : l = .histget ∨ l = .histgetWake)
    (h : step s l = some s') :
    ∃ r req res, Misclib.histget r = some res ∧ s' = s.got req res := by
  rcases hl with rfl | rfl
  · cases step_cases h with
    | histget req res _ hres => exact ⟨_, req, res, hres, rfl⟩
  · cases step_cases h with
    | histgetWake req res _ hres =>
      obtain ⟨r, hres⟩ := histget_of_resume hres
      exact ⟨r, req, res, hres, rfl⟩

theorem Handed.ring {s s' : State} {l : Label} {req : Request} {hp : Nat}
    (h : Handed s l s' req hp) : 0 < s'.ring.numhist ∧ hp = s'.ring.conshistp := by
  obtain ⟨r, req', ⟨r', o⟩, hres, hs'⟩ := step_histget h.label h.taken
  have hpc := h.pc
  subst hs'
  cases o with
  | none => cases hpc
  | some hp' =>
    obtain ⟨hpos, rfl, rfl⟩ := histget_of_pos hres
    simp only [State.got, Pc.test.injEq] at hpc
    exact ⟨hpos, hpc.2.symm⟩

/-! ## The ring during the window -/

/-- The ring after `f` forced removals since `histget` handed out slot `hp`, which has
position `C` and had the date `d`. -/
structure Sent (hp d C f : Nat) (r : Ring) (P : Nat) : Prop where
  pos : At r P (C + f)
  slot : hp = C % r.nhist
  num : 0 < r.numhist
  newer : ∀ b, C < b → b ≤ P → P < b + r.nhist → d < r.date (b % r.nhist)
  date : f ≤ 2 → r.date hp = d

theorem used_of_num {r : Ring} {P C : Nat} (h : At r P C) (hnum : 0 < r.numhist) : r.used = 1 := by
  have hn := h.num
  unfold Ring.used at *
  split
  · rename_i h₀
    have hP := h.fresh h₀
    rw [if_pos h₀] at hn
    omega
  · rfl

namespace Sent

variable {hp d C f P : Nat} {r r' : Ring}

/-- The next entry lies ahead of the window, less than one turn ahead until the ring
was forced three times. -/
theorem bounds (h : Sent hp d C f r P) :
    C + f ≤ P ∧ P + 1 ≤ C + f + (r.nhist - keepFileCount) ∧ keepFileCount + 2 ≤ r.nhist := by
  have hn := h.pos.num
  have hle := h.pos.num_le
  have hsize := h.pos.size
  have hnum := h.num
  rw [used_of_num h.pos h.num] at hn
  unfold keepFileCount at *
  push_cast at *
  omega

theorem nextEntry_eq (h : Sent hp d C f r P) : nextEntry r = (P + 1) % r.nhist := by
  rw [h.pos.nextEntry_eq, used_of_num h.pos h.num]

theorem slot_ne_nextEntry (h : Sent hp d C f r P) (hf : f ≤ 2) : hp ≠ nextEntry r := by
  obtain ⟨hlo, hhi, hsize⟩ := h.bounds
  rw [h.slot, h.nextEntry_eq]
  unfold keepFileCount at *
  exact mod_ne_of_lt (by omega) (by omega)

theorem same (h : Sent hp d C f r P) (hs : SameRing r r') : Sent hp d C f r' P where
  pos := hs.at h.pos
  slot := by rw [hs.nhist]; exact h.slot
  num := by rw [hs.numhist]; exact h.num
  newer := by
    intro b hb
    rw [hs.nhist, Ring.date, hs.history]
    exact h.newer b hb
  date := by
    intro hf
    rw [Ring.date, hs.history]
    exact h.date hf

theorem le_date_prod (h : Sent hp d C f r P) : d ≤ r.date r.prodhistp := by
  obtain ⟨hlo, _, _⟩ := h.bounds
  rcases Nat.lt_or_ge C P with hlt | hge
  · have hpos := h.pos.pos
    have hnew := h.newer P hlt (le_refl P) (by omega)
    have hmax := h.pos.newest (P % r.nhist)
    omega
  · obtain rfl : f = 0 := by omega
    rw [← h.date (by omega)]
    exact h.pos.newest hp

theorem put (h : Sent hp d C f r P) {path : Path} {dt : Int64} {tent : Int}
    (hput : histput path dt tent r = some r') :
    ∃ P', Sent hp d C (if Forces r dt tent then f + 1 else f) r' P' := by
  have hn := histput_nhist hput
  cases h.pos.histput_effect hput with
  | kept hf hat hd hnum =>
    rw [if_neg hf]
    refine ⟨P, hat, by rw [hn]; exact h.slot, by rw [hnum]; exact h.num, ?_, ?_⟩
    · intro b hb
      rw [hn, hd]
      exact h.newer b hb
    · intro hf'
      rw [hd]
      exact h.date hf'
  | opened hat hnew hself hother hnum =>
    rw [used_of_num h.pos h.num] at hat
    refine ⟨P + 1, ?_, by rw [hn]; exact h.slot, ?_, ?_, ?_⟩
    · split at hat
      · rename_i hf
        rw [if_pos hf, ← Nat.add_assoc]
        exact hat
      · rename_i hf
        rw [if_neg hf]
        exact hat
    · have := h.num
      rw [hnum]
      split <;> omega
    · intro b hCb hbP hPb
      rw [hn] at hPb ⊢
      by_cases hb : b = P + 1
      · rw [hb, ← h.nextEntry_eq, hself]
        have := h.le_date_prod
        omega
      · rw [hother _ (by rw [h.nextEntry_eq]; exact mod_ne_of_lt (by omega) hPb)]
        exact h.newer b hCb (by omega) (by omega)
    · intro hf'
      have hf : f ≤ 2 := by
        split at hf' <;> omega
      rw [hother hp (h.slot_ne_nextEntry hf)]
      exact h.date hf

theorem at_sent_iff (h : Sent hp d C f r P) : (r.conshistp = hp ∧ r.date hp = d) ↔ f = 0 := by
  obtain ⟨hlo, hhi, _⟩ := h.bounds
  constructor
  · rintro ⟨hcons, hdate⟩
    by_contra hf
    have hnew := h.newer (C + f) (by omega) hlo (by omega)
    rw [← h.pos.cons, hcons, hdate] at hnew
    exact lt_irrefl d hnew
  · rintro rfl
    exact ⟨by rw [h.pos.cons, h.slot, Nat.add_zero], h.date (by omega)⟩

end Sent

theorem Handed.run {nh : Int} {sn : Nat} {pre mid : List Label} {s s₁ s₂ : State} {l : Label}
    {req : Request} {hp : Nat} (hpre : exec step (init nh sn) pre = some s)
    (hget : Handed s l s₁ req hp) (hmid : exec step s₁ mid = some s₂)
    (hwin : ∀ l ∈ mid, l.InWindow) :
    ∃ C P, Sent hp (s₁.ring.date hp) C (countAlong step Forcing s₁ mid) s₂.ring P := by
  obtain ⟨P, C, hat⟩ : ∃ P C, At s₁.ring P C :=
    exec_at (exec_snoc_iff.mpr ⟨s, hpre, hget.taken⟩)
  obtain ⟨hnum, hslot⟩ := hget.ring
  refine ⟨C, ?_⟩
  induction mid using List.reverseRecOn generalizing s₂ with
  | nil =>
    obtain rfl : s₁ = s₂ := by simpa using hmid
    refine ⟨P, hat, by rw [hslot, hat.cons], hnum, ?_, fun _ => rfl⟩
    intro b hCb hbP hPb
    have hn := hat.num
    have hle := hat.num_le
    have hu := used_of_num hat hnum
    rw [hslot, hat.cons]
    refine hat.sorted C b hCb hbP ?_
    unfold keepFileCount at hle
    omega
  | append_singleton mid l' ih =>
    obtain ⟨t, ht, hstep⟩ := exec_snoc_iff.mp hmid
    obtain ⟨P', hS⟩ := ih ht fun l hl => hwin l (List.mem_append_left _ hl)
    have hl' := hwin l' (by simp)
    rw [countAlong_snoc ht]
    cases step_effect hstep with
    | histput path dt tent hl hput _ _ =>
      subst hl
      obtain ⟨P'', hS'⟩ := hS.put hput
      refine ⟨P'', ?_⟩
      have hcount : (if Forces t.ring dt tent then countAlong step Forcing s₁ mid + 1
          else countAlong step Forcing s₁ mid) = countAlong step Forcing s₁ mid +
            if Forcing t (.histput path dt tent) then 1 else 0 := by
        by_cases hf : Forces t.ring dt tent <;> simp [Forcing, hf]
      rwa [hcount] at hS'
    | histremove hl _ _ =>
      subst hl
      exact hl'.elim
    | getReply files heap sent opt hp' hl _ hr _ =>
      subst hl
      exact ⟨P', by rw [hr]; exact hS⟩
    | quiet hput _ _ hsame _ =>
      have hnf : ¬ Forcing t l' := by
        cases l' with
        | histput path dt tent => exact absurd rfl (hput path dt tent)
        | _ => exact id
      exact ⟨P', by rw [if_neg hnf]; exact hS.same hsame⟩

/-- The `histremove` of the transfer thread takes slot `hp`, with date `d`, from the queue. -/
structure Releases (s s' : State) (hp d : Nat) : Prop where
  slot : s.ring.conshistp = hp
  date : s.ring.date hp = d
  cons : s'.ring.conshistp = updatePointer s.ring.nhist hp
  num : s'.ring.numhist = s.ring.numhist - 1

theorem step_histremove {s s' : State} (h : step s .histremove = some s') :
    s'.ring = s.ring.removed := by
  cases step_effect h with
  | histput path dt tent hl _ _ _ => cases hl
  | histremove _ hrem _ => exact (histremove_iff.mp hrem).2.2
  | getReply _ _ _ _ _ hl _ _ _ => cases hl
  | quiet _ hrem _ _ _ => exact absurd rfl hrem

/-- An acknowledgement releases the entry that was sent if and only if no `histput`
forced a removal since `histget` returned it. The window is that of a `CMD_GET` up to
its successful reply, or of a `CMD_OPEN` up to the `CMD_CLOSE` on its connection. -/
theorem ack_releases_sent_entry_iff {nh : Int} {sn : Nat} {pre mid : List Label}
    {s s₁ s₂ s₃ : State} {l : Label} {req : Request} {hp : Nat}
    (hpre : exec step (init nh sn) pre = some s) (hget : Handed s l s₁ req hp)
    (hmid : exec step s₁ mid = some s₂) (hwin : ∀ l ∈ mid, l.InWindow)
    (hack : step s₂ .histremove = some s₃) :
    Releases s₂ s₃ hp (s₁.ring.date hp) ↔ Along step (fun s l => ¬ Forcing s l) s₁ mid := by
  obtain ⟨C, P, hS⟩ := hget.run hpre hmid hwin
  rw [← countAlong_eq_zero_iff hmid, ← hS.at_sent_iff]
  constructor
  · exact fun h => ⟨h.slot, h.date⟩
  · rintro ⟨hslot, hdate⟩
    have hr := step_histremove hack
    refine ⟨hslot, hdate, ?_, ?_⟩
    · rw [hr, ← hslot]
      rfl
    · rw [hr]
      rfl

theorem ack_releases_sent_entry_iff_quiet :
    ∃ s₂ s₃, exec step (init 5 1) [.histput ⟨[97], by decide⟩ 1 0, .accept 3,
        .command .get ![8, 0, 0], .histget, .test,
        .getReply ![.content [1], .noOpen, .noOpen] (fun _ => 0) true] = some s₂ ∧
      step s₂ .histremove = some s₃ ∧ Releases s₂ s₃ 0 1 := by
  refine ⟨_, _, rfl, rfl, ?_⟩
  exact (@ack_releases_sent_entry_iff 5 1
    [.histput ⟨[97], by decide⟩ 1 0, .accept 3, .command .get ![8, 0, 0]]
    [.test, .getReply ![.content [1], .noOpen, .noOpen] (fun _ => 0) true]
    _ _ _ _ .histget (.get ![8, 0, 0]) 0 rfl ⟨rfl, Or.inl rfl, rfl⟩ rfl
    (by simp [Label.InWindow]) rfl).mpr (by decide)

/-- On a ring of five slots, the file of date 3 arrives while the entry of date 1 is
sent: the acknowledgement then releases the entry of date 2. -/
theorem ack_releases_unsent_entry :
    let mid : List Label := [.test, .histput ⟨[99], by decide⟩ 3 0,
      .getReply ![.content [1], .noOpen, .noOpen] (fun _ => 0) true]
    ∃ s s₁ s₂ s₃, exec step (init 5 1) [.histput ⟨[97], by decide⟩ 1 0,
        .histput ⟨[98], by decide⟩ 2 0, .accept 3, .command .get ![8, 0, 0]] = some s ∧
      Handed s .histget s₁ (.get ![8, 0, 0]) 0 ∧ exec step s₁ mid = some s₂ ∧
      (∀ l ∈ mid, l.InWindow) ∧ step s₂ .histremove = some s₃ ∧ s₁.ring.date 0 = 1 ∧
      Releases s₂ s₃ 1 2 ∧ ¬ Releases s₂ s₃ 0 1 := by
  refine ⟨_, _, _, _, rfl, ⟨rfl, Or.inl rfl, rfl⟩, rfl, by simp [Label.InWindow], rfl, rfl,
    ⟨by decide, by decide, by decide, by decide⟩, fun h => ?_⟩
  exact absurd h.slot (by decide)

end JitDt.Lwatcher
