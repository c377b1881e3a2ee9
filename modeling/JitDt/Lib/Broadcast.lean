import JitDt.Lib.Machine

/-!
# One sender and its readers

A sender puts messages out in order, each of them to all readers; every reader has a queue of its
own and takes from it when it likes. A reader is a program that waits for one message after the
other and may refuse one. What a reader has become is decided by the messages alone, so any two
runs that end leave the same results, and no reader is left waiting.
-/

namespace JitDt.Broadcast

set_option autoImplicit false

open Machine

universe u v w x
variable {M : Type u} {R : Type v} {S : Type v} {A : Type w}

/-- A program that reads messages: it has a result, waits, or has refused a message. -/
inductive Reader (M : Type u) (R : Type v) where
  | done (r : R)
  | wait (next : M → Reader M R)
  | refused

namespace Reader

def bind (f : R → Reader M S) : Reader M R → Reader M S
  | .done r => f r
  | .wait next => .wait fun m => bind f (next m)
  | .refused => .refused

/-- What a program becomes when it reads the messages; one that is done refuses more of them. -/
def feed : Reader M R → List M → Reader M R
  | c, [] => c
  | .done _, _ :: _ => .refused
  | .wait next, m :: ms => feed (next m) ms
  | .refused, _ :: _ => .refused

/-- The programs of a list of calls, one behind the other. -/
def calls {C : Type x} (call : C → S → Reader M S) : List C → S → Reader M S
  | [], s => .done s
  | c :: cs, s => bind (calls call cs) (call c s)

@[simp] theorem feed_nil (c : Reader M R) : feed c [] = c := by
  cases c <;> rfl

theorem feed_refused (ms : List M) : feed (.refused : Reader M R) ms = .refused := by
  cases ms <;> rfl

theorem feed_append (c : Reader M R) (ms ms' : List M) :
    feed c (ms ++ ms') = feed (feed c ms) ms' := by
  induction ms generalizing c with
  | nil => rw [List.nil_append, feed_nil]
  | cons m ms ih =>
    cases c with
    | done r => exact (feed_refused ms').symm
    | wait next => exact ih (next m)
    | refused => exact (feed_refused ms').symm

theorem feed_bind {c : Reader M R} {ms : List M} {r : R} (h : feed c ms = .done r)
    (f : R → Reader M S) : feed (bind f c) ms = f r := by
  induction ms generalizing c with
  | nil =>
    rw [feed_nil] at h
    rw [h, feed_nil]
    rfl
  | cons m ms ih =>
    cases c with
    | done _ => cases h
    | wait next => exact ih h
    | refused => cases h

/-- A list of calls, each of which reads its part of the messages and puts out one result. -/
theorem feed_calls {C : Type x} {B : Type x} {call : C → S → Reader M S} {name : A → C}
    {part : A → List M} {out : S → List B} {result : A → B} {as : List A}
    (h : ∀ a ∈ as, ∀ s, ∃ t, feed (call (name a) s) (part a) = .done t ∧
      out t = out s ++ [result a]) (s : S) :
    ∃ t, feed (calls call (as.map name) s) (as.flatMap part) = .done t ∧
      out t = out s ++ as.map result := by
  induction as generalizing s with
  | nil => exact ⟨s, rfl, (List.append_nil _).symm⟩
  | cons a as ih =>
    obtain ⟨u, hu, hout⟩ := h a List.mem_cons_self s
    obtain ⟨t, ht, hrest⟩ := ih (fun b hb => h b (List.mem_cons_of_mem a hb)) u
    refine ⟨t, ?_, ?_⟩
    · rw [List.flatMap_cons, List.map_cons, calls, feed_append, feed_bind hu]
      exact ht
    · rw [hrest, hout, List.append_assoc, List.singleton_append, List.map_cons]

end Reader

/-- The messages that are still to be sent, and what each reader has before it. -/
structure Net (M : Type u) (R : Type v) (n : Nat) where
  pending : List M
  queue : Fin n → List M
  reader : Fin n → Reader M R

inductive Label (n : Nat) where
  | send
  | recv (p : Fin n)
deriving DecidableEq

variable {n : Nat}

def start (ms : List M) (c : Fin n → Reader M R) : Net M R n := ⟨ms, fun _ => [], c⟩

def step (s : Net M R n) : Label n → Option (Net M R n)
  | .send =>
    match s.pending with
    | m :: ms => some ⟨ms, fun p => s.queue p ++ [m], s.reader⟩
    | [] => none
  | .recv p =>
    match s.queue p, s.reader p with
    | m :: ms, .wait next =>
      some ⟨s.pending, Function.update s.queue p ms, Function.update s.reader p (next m)⟩
    | _, _ => none

section Runs
variable {ms : List M} {c : Fin n → Reader M R} {s t : Net M R n} {l : Label n}
variable {ls : List (Label n)}

inductive StepCases (s : Net M R n) : Label n → Net M R n → Prop where
  | send (m : M) (ms : List M) (h : s.pending = m :: ms) :
      StepCases s .send ⟨ms, fun p => s.queue p ++ [m], s.reader⟩
  | recv (p : Fin n) (m : M) (ms : List M) (next : M → Reader M R) (hq : s.queue p = m :: ms)
      (hr : s.reader p = .wait next) : StepCases s (.recv p)
        ⟨s.pending, Function.update s.queue p ms, Function.update s.reader p (next m)⟩

theorem step_cases (h : step s l = some t) : StepCases s l t := by
  unfold step at h
  split at h
  · split at h
    · rw [← Option.some.inj h]
      exact .send _ _ ‹_›
    · cases h
  · split at h
    · rw [← Option.some.inj h]
      exact .recv _ _ _ _ ‹_› ‹_›
    · cases h

/-- What a reader will become does not change. -/
theorem step_feed (h : step s l = some t) (p : Fin n) :
    (t.reader p).feed (t.queue p ++ t.pending) = (s.reader p).feed (s.queue p ++ s.pending) := by
  cases step_cases h with
  | send m ms hp => rw [hp, List.append_assoc, List.singleton_append]
  | recv q m ms next hq hr =>
    by_cases hpq : p = q
    · subst hpq
      simp only [Function.update_self, hq, hr, List.cons_append, Reader.feed]
    · simp only [Function.update_of_ne hpq]

theorem exec_feed (h : exec step (start ms c) ls = some t) (p : Fin n) :
    (t.reader p).feed (t.queue p ++ t.pending) = (c p).feed ms := by
  refine exec_invariant (I := fun t => (t.reader p).feed (t.queue p ++ t.pending) = (c p).feed ms)
    (fun hI hstep => (step_feed hstep p).trans hI) ?_ h
  rfl

variable {r : Fin n → R}

/-- A reader that has a message before it waits for it. -/
theorem waits_of_queue (hdone : ∀ p, (c p).feed ms = .done (r p))
    (h : exec step (start ms c) ls = some t) {p : Fin n} (hq : t.queue p ≠ []) :
    ∃ next, t.reader p = .wait next := by
  have hfeed := (exec_feed h p).trans (hdone p)
  obtain ⟨m, qs, hqs⟩ := List.exists_cons_of_ne_nil hq
  rw [hqs, List.cons_append] at hfeed
  cases hr : t.reader p with
  | done _ =>
    rw [hr] at hfeed
    cases hfeed
  | wait next => exact ⟨next, rfl⟩
  | refused =>
    rw [hr] at hfeed
    cases hfeed

/-- A run that cannot go on has left every reader with its result. -/
theorem done_of_stuck (hdone : ∀ p, (c p).feed ms = .done (r p))
    (h : exec step (start ms c) ls = some t) (hstuck : ∀ l, step t l = none) (p : Fin n) :
    t.reader p = .done (r p) := by
  have hpending : t.pending = [] := by
    cases hp : t.pending with
    | nil => rfl
    | cons m ms' =>
      have hsend := hstuck .send
      unfold step at hsend
      rw [hp] at hsend
      cases hsend
  have hqueue : t.queue p = [] := by
    by_contra hq
    obtain ⟨next, hnext⟩ := waits_of_queue hdone h hq
    obtain ⟨m, qs, hqs⟩ := List.exists_cons_of_ne_nil hq
    have hrecv := hstuck (.recv p)
    unfold step at hrecv
    simp only [hqs, hnext] at hrecv
    cases hrecv
  have hfeed := (exec_feed h p).trans (hdone p)
  rw [hqueue, hpending, List.nil_append, Reader.feed_nil] at hfeed
  exact hfeed

/-- The steps that are left at most. -/
def Net.work (s : Net M R n) : Nat := s.pending.length * (n + 1) + ∑ p, (s.queue p).length

theorem step_work (h : step s l = some t) : t.work + 1 = s.work := by
  unfold Net.work
  cases step_cases h with
  | send m ms hp =>
    simp only [hp, List.length_cons, List.length_append, List.length_nil, Finset.sum_add_distrib,
      Finset.sum_const, Finset.card_univ, Fintype.card_fin, smul_eq_mul, Nat.add_mul]
    omega
  | recv p m ms next hq hr =>
    have hsum : ∑ q, (Function.update s.queue p ms q).length + 1 = ∑ q, (s.queue q).length := by
      rw [← Finset.add_sum_erase _ _ (Finset.mem_univ p), ← Finset.add_sum_erase _ (fun q =>
        (s.queue q).length) (Finset.mem_univ p), Function.update_self, hq, List.length_cons]
      have hrest : ∀ q ∈ Finset.univ.erase p, (Function.update s.queue p ms q).length =
          (s.queue q).length := by
        intro q hq'
        rw [Function.update_of_ne (Finset.ne_of_mem_erase hq')]
      rw [Finset.sum_congr rfl hrest]
      omega
    simp only
    omega

theorem exec_length_le (h : exec step (start ms c) ls = some t) :
    ls.length ≤ ms.length * (n + 1) := by
  have hwork : t.work + ls.length = (start ms c).work := by
    refine exec_invariant_past (I := fun ls t => t.work + ls.length = (start ms c).work) rfl ?_ h
    intro ls s l t _ hs hstep
    have hone := step_work hstep
    rw [List.length_append, List.length_singleton]
    omega
  have hstart : (start ms c).work = ms.length * (n + 1) := by
    simp [Net.work, start]
  omega

end Runs

end JitDt.Broadcast
