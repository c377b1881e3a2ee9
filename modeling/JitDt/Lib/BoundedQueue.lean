import Mathlib

/-!
# A bounded queue of strictly increasing keys

The queue keeps the keys still to be handed out, oldest first, and the newest key
ever accepted. A key is accepted only when it is newer than all keys before it;
when the queue is full the oldest key makes room. The invariants are fields, so
an unsorted or overfull queue cannot be built.

The main result is that a consumer that looks at the head, removes and looks
again sees a strictly increasing sequence, whatever is pushed in between.
-/

namespace JitDt

set_option autoImplicit false

universe u
variable {D : Type u} {cap : Nat}

/-- The items after `d` was accepted: appended, the oldest dropped if that is one too many. -/
def accept (cap : Nat) (items : List D) (d : D) : List D :=
  if items.length < cap then items ++ [d] else (items ++ [d]).tail

theorem accept_sublist (items : List D) (d : D) : (accept cap items d).Sublist (items ++ [d]) := by
  unfold accept
  split
  · exact .refl _
  · exact List.tail_sublist _

structure BoundedQueue (D : Type u) [LinearOrder D] (cap : Nat) where
  items : List D
  newest : WithBot D
  sorted : items.Pairwise (· < ·)
  bounded : ∀ d ∈ items, (d : WithBot D) ≤ newest
  length_le : items.length ≤ cap

namespace BoundedQueue

variable [LinearOrder D]

def empty : BoundedQueue D cap where
  items := []
  newest := ⊥
  sorted := .nil
  bounded := by simp
  length_le := Nat.zero_le _

def Newer (q : BoundedQueue D cap) (d : D) : Prop := q.newest < (d : WithBot D)

instance (q : BoundedQueue D cap) (d : D) : Decidable (q.Newer d) :=
  inferInstanceAs (Decidable (_ < _))

def push (q : BoundedQueue D cap) (d : D) : BoundedQueue D cap :=
  if h : q.Newer d then
    { items := accept cap q.items d
      newest := (d : WithBot D)
      sorted := by
        refine List.Pairwise.sublist (accept_sublist q.items d) ?_
        rw [List.pairwise_append]
        refine ⟨q.sorted, by simp, ?_⟩
        intro a ha b hb
        obtain rfl : b = d := List.mem_singleton.mp hb
        have ha' : (a : WithBot D) < b := (q.bounded a ha).trans_lt h
        exact WithBot.coe_lt_coe.mp ha'
      bounded := by
        intro a ha
        rcases List.mem_append.mp ((accept_sublist q.items d).subset ha) with ha | ha
        · exact (q.bounded a ha).trans (le_of_lt h)
        · exact (List.mem_singleton.mp ha) ▸ le_refl _
      length_le := by
        have hlen := q.length_le
        unfold accept
        split
        · rw [List.length_append, List.length_singleton]
          omega
        · rw [List.length_tail, List.length_append, List.length_singleton]
          omega }
  else q

def pop (q : BoundedQueue D cap) : BoundedQueue D cap where
  items := q.items.tail
  newest := q.newest
  sorted := q.sorted.sublist (List.tail_sublist _)
  bounded := fun d hd => q.bounded d (List.mem_of_mem_tail hd)
  length_le := by
    have hlen := q.length_le
    rw [List.length_tail]
    omega

@[simp] theorem empty_items : (empty : BoundedQueue D cap).items = [] := rfl

@[simp] theorem empty_newest : (empty : BoundedQueue D cap).newest = ⊥ := rfl

@[simp] theorem pop_items (q : BoundedQueue D cap) : q.pop.items = q.items.tail := rfl

@[simp] theorem pop_newest (q : BoundedQueue D cap) : q.pop.newest = q.newest := rfl

theorem push_items_of_newer {q : BoundedQueue D cap} {d : D} (h : q.Newer d) :
    (q.push d).items = accept cap q.items d := by
  simp [push, h]

theorem push_newest_of_newer {q : BoundedQueue D cap} {d : D} (h : q.Newer d) :
    (q.push d).newest = (d : WithBot D) := by
  simp [push, h]

theorem push_of_not_newer {q : BoundedQueue D cap} {d : D} (h : ¬ q.Newer d) : q.push d = q := by
  simp [push, h]

theorem newest_le_push (q : BoundedQueue D cap) (d : D) : q.newest ≤ (q.push d).newest := by
  by_cases hd : q.Newer d
  · rw [push_newest_of_newer hd]
    exact le_of_lt hd
  · rw [push_of_not_newer hd]

theorem le_newest_push (q : BoundedQueue D cap) (d : D) : (d : WithBot D) ≤ (q.push d).newest := by
  by_cases hd : q.Newer d
  · rw [push_newest_of_newer hd]
  · rw [push_of_not_newer hd]
    exact not_lt.mp hd

/-- All keys that are or may still come into the queue are `r`-above `a`. -/
def Above (r : D → D → Prop) (a : D) (q : BoundedQueue D cap) : Prop :=
  (∀ d ∈ q.items, r a d) ∧ (a : WithBot D) ≤ q.newest

theorem Above.push {r : D → D → Prop} (hlt : ∀ {a d : D}, a < d → r a d) {a : D}
    {q : BoundedQueue D cap} (h : Above r a q) (d : D) : Above r a (q.push d) := by
  by_cases hd : q.Newer d
  · have had : (a : WithBot D) < d := h.2.trans_lt hd
    refine ⟨?_, ?_⟩
    · intro e he
      rw [push_items_of_newer hd] at he
      rcases List.mem_append.mp ((accept_sublist q.items d).subset he) with he | he
      · exact h.1 e he
      · obtain rfl : e = d := List.mem_singleton.mp he
        exact hlt (WithBot.coe_lt_coe.mp had)
    · rw [push_newest_of_newer hd]
      exact had.le
  · rwa [push_of_not_newer hd]

theorem Above.pop {r : D → D → Prop} {a : D} {q : BoundedQueue D cap} (h : Above r a q) :
    Above r a q.pop :=
  ⟨fun d hd => h.1 d (List.mem_of_mem_tail hd), h.2⟩

theorem above_head {q : BoundedQueue D cap} {a : D} (h : q.items.head? = some a) :
    Above (· ≤ ·) a q := by
  have hmem : a ∈ q.items := List.mem_of_head? h
  refine ⟨?_, q.bounded a hmem⟩
  intro d hd
  have hs := q.sorted
  obtain ⟨rest, hrest⟩ : ∃ rest, q.items = a :: rest := by
    cases hi : q.items with
    | nil => simp [hi] at h
    | cons b rest =>
      obtain rfl : b = a := by simpa [hi] using h
      exact ⟨rest, rfl⟩
  rw [hrest] at hd hs
  rcases List.mem_cons.mp hd with rfl | hd
  · exact le_refl _
  · exact ((List.pairwise_cons.mp hs).1 d hd).le

theorem Above.pop_strict {a : D} {q : BoundedQueue D cap} (h : Above (· ≤ ·) a q) :
    Above (· < ·) a q.pop := by
  refine ⟨?_, h.2⟩
  intro d hd
  cases hi : q.items with
  | nil => simp [hi] at hd
  | cons b rest =>
    have hs := q.sorted
    rw [hi] at hs
    have hd' : d ∈ rest := by simpa [hi] using hd
    have hab : a ≤ b := h.1 b (by simp [hi])
    exact hab.trans_lt ((List.pairwise_cons.mp hs).1 d hd')

end BoundedQueue

inductive QueueOp (D : Type u) where
  | push (d : D)
  | look
  | pop

namespace QueueOp

variable [LinearOrder D]

def apply (q : BoundedQueue D cap) : QueueOp D → BoundedQueue D cap
  | .push d => q.push d
  | .look => q
  | .pop => q.pop

def run (q : BoundedQueue D cap) (ops : List (QueueOp D)) : BoundedQueue D cap :=
  ops.foldl apply q

theorem above_apply {r : D → D → Prop} (hlt : ∀ {a d : D}, a < d → r a d) {a : D}
    {q : BoundedQueue D cap} (h : q.Above r a) (op : QueueOp D) : (apply q op).Above r a := by
  cases op with
  | push d => exact h.push hlt d
  | look => exact h
  | pop => exact h.pop

theorem above_run {r : D → D → Prop} (hlt : ∀ {a d : D}, a < d → r a d) {a : D}
    {q : BoundedQueue D cap} (h : q.Above r a) (ops : List (QueueOp D)) :
    (run q ops).Above r a := by
  induction ops generalizing q with
  | nil => exact h
  | cons op ops ih => exact ih (above_apply hlt h op)

theorem above_run_of_pop {a : D} {q : BoundedQueue D cap} (h : q.Above (· ≤ ·) a)
    {ops : List (QueueOp D)} (hpop : .pop ∈ ops) : (run q ops).Above (· < ·) a := by
  induction ops generalizing q with
  | nil => simp at hpop
  | cons op ops ih =>
    by_cases hop : op = .pop
    · subst hop
      exact above_run id h.pop_strict ops
    · have hrest : .pop ∈ ops := by
        rcases List.mem_cons.mp hpop with heq | hm
        · exact absurd heq.symm hop
        · exact hm
      exact ih (above_apply le_of_lt h op) hrest

theorem le_newest_run {q : BoundedQueue D cap} {d : D} {ops : List (QueueOp D)}
    (h : (d : WithBot D) ≤ q.newest ∨ .push d ∈ ops) : (d : WithBot D) ≤ (run q ops).newest := by
  induction ops generalizing q with
  | nil =>
    rcases h with h | h
    · exact h
    · simp at h
  | cons op ops ih =>
    refine ih ?_
    rcases h with h | h
    · refine Or.inl ?_
      cases op with
      | push e => exact h.trans (q.newest_le_push e)
      | look => exact h
      | pop => exact h
    · rcases List.mem_cons.mp h with rfl | h
      · exact Or.inl (q.le_newest_push d)
      · exact Or.inr h

/-- Looking, removing and looking again yields a strictly newer key. -/
theorem head_lt_head_of_pop {q : BoundedQueue D cap} {ops : List (QueueOp D)} {a b : D}
    (ha : q.items.head? = some a) (hpop : .pop ∈ ops) (hb : (run q ops).items.head? = some b) :
    a < b :=
  (above_run_of_pop (BoundedQueue.above_head ha) hpop).1 b (List.mem_of_head? hb)

/-! What goes in and what goes out: the items lie between the two. -/

/-- The key that the operation takes into the queue. -/
def accepted (q : BoundedQueue D cap) : QueueOp D → List D
  | .push d => if q.Newer d then [d] else []
  | _ => []

/-- The key that leaves the queue. -/
def released (q : BoundedQueue D cap) : QueueOp D → List D
  | .push d =>
    if q.Newer d ∧ ¬ q.items.length < cap then (q.items ++ [d]).head?.toList else []
  | .pop => q.items.head?.toList
  | .look => []

theorem items_append_accepted (q : BoundedQueue D cap) (op : QueueOp D) :
    q.items ++ accepted q op = released q op ++ (apply q op).items := by
  have hsplit : ∀ items : List D, items = items.head?.toList ++ items.tail := by
    intro items
    cases items <;> rfl
  cases op with
  | push d =>
    by_cases hd : q.Newer d
    · by_cases hlt : q.items.length < cap
      · simp [accepted, released, apply, BoundedQueue.push_items_of_newer, accept, hd, hlt]
      · simp only [accepted, released, apply, BoundedQueue.push_items_of_newer hd, accept, hd, hlt,
          if_true, if_false, not_false_eq_true, and_self]
        exact hsplit _
    · simp [accepted, released, apply, BoundedQueue.push_of_not_newer, hd]
  | look => simp [accepted, released, apply]
  | pop =>
    simp only [accepted, released, apply, BoundedQueue.pop_items, List.append_nil]
    exact hsplit _

theorem newest_le_apply (q : BoundedQueue D cap) (op : QueueOp D) :
    q.newest ≤ (apply q op).newest := by
  cases op with
  | push d => exact q.newest_le_push d
  | look => exact le_refl _
  | pop => exact le_refl _

/-- An accepted key is newer than everything before it. -/
theorem newer_of_mem_accepted {q : BoundedQueue D cap} {op : QueueOp D} {d : D}
    (h : d ∈ accepted q op) : q.Newer d ∧ (apply q op).newest = (d : WithBot D) := by
  cases op with
  | push e =>
    simp only [accepted] at h
    split at h
    · rename_i he
      obtain rfl : d = e := List.mem_singleton.mp h
      exact ⟨he, BoundedQueue.push_newest_of_newer he⟩
    · cases h
  | look => cases h
  | pop => cases h

end QueueOp

end JitDt
