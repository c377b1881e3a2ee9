import JitDt.Lwatcher.System
import JitDt.Lwatcher.Framing

/-!
# What one request leaves for the next

`nsize` starts as `sync_nsize()` and is lowered by every request that asks for fewer
files. It is then the threshold of the completeness check of all later requests.
-/

namespace JitDt.Lwatcher

set_option autoImplicit false

open Misclib Jitcclient Machine

/-- The answer to a GET request on an entry as it is now. -/
inductive Answer where
  | waits
  | exits
  | replies (r : GetReply)

def answer (nsize : Nat) (h : HistData) (opt : Opt) (files : Fin transoptSize → FileRead)
    (heap : Memory) : Option Answer := do
  if ← arrived nsize h then
    match ← serveGet nsize h opt files heap with
    | (_, none) => some .exits
    | (_, some r) => some (.replies r)
  else some .waits

/-- The entries of `retval` that were assigned. -/
def GetReply.entries (r : GetReply) : List (Fin transoptSize) :=
  (List.finRange transoptSize).filter fun i => (r.retval i).isSome

/-- The reply has an entry for each of these files, and lists their names. -/
structure GetReply.Carries (r : GetReply) (h : HistData) (sent : List (Fin transoptSize)) : Prop where
  entries : r.entries = sent
  names : r.tmpstr = (listText (sent.filterMap h.fname)).dropLast

/-- Every request is answered as by a server that has served nothing before: it waits for all `sn`
types, and the reply carries the files of the leading entries that are not zero as far as they can
be opened, so that it has `min k sn` of them exactly when all of these can. -/
structure Independent (sn nsize : Nat) : Prop where
  same : ∀ h opt files heap, answer nsize h opt files heap = answer sn h opt files heap
  waits : ∀ h opt files heap r, answer nsize h opt files heap = some (.replies r) →
    ∀ i : Fin fnameMax, i.val < sn → h.fname i ≠ none
  files : ∀ h opt files heap r, answer nsize h opt files heap = some (.replies r) →
    r.Carries h (((List.finRange transoptSize).take (min (leading opt) sn)).filter fun i =>
      (files i).opens)
  count : ∀ h opt files heap r, answer nsize h opt files heap = some (.replies r) →
    (r.entries.length = min (leading opt) sn ↔
      ∀ i : Fin transoptSize, i.val < min (leading opt) sn → (files i).opens)

/-- A request served in this step asks for all `sn` files. -/
def FullRequest (sn : Nat) (s : State) (l : Label) : Prop :=
  match s.pc, l with
  | .serve opt _, .getReply _ _ _ => sn ≤ leading opt
  | _, _ => True

instance (sn : Nat) (s : State) (l : Label) : Decidable (FullRequest sn s l) := by
  unfold FullRequest
  split <;> infer_instance

theorem arrivedFrom_true {h : HistData} {k i : Nat} (ha : arrivedFrom h k i = some true) :
    (0 < k → i + k ≤ fnameMax) ∧
      ∀ j : Fin fnameMax, i ≤ j.val → j.val < i + k → h.fname j ≠ none := by
  induction k generalizing i with
  | zero => exact ⟨by omega, fun j hlo hhi => by omega⟩
  | succ k ih =>
    obtain ⟨f, hf, ha⟩ := Option.bind_eq_some_iff.mp ha
    unfold fnameAt at hf
    split at hf
    · rename_i hi
      cases f with
      | none => simp at ha
      | some p =>
        obtain ⟨hle, hall⟩ := ih ha
        refine ⟨fun _ => by omega, ?_⟩
        intro j hlo hhi
        by_cases hj : j = ⟨i, hi⟩
        · rw [hj, Option.some.inj hf]
          simp
        · have : j.val ≠ i := fun he => hj (Fin.ext he)
          exact hall j (by omega) (by omega)
    · cases hf

theorem arrived_true {nsize : Nat} {h : HistData} (ha : arrived nsize h = some true) :
    nsize ≤ fnameMax ∧ ∀ j : Fin fnameMax, j.val < nsize → h.fname j ≠ none := by
  obtain ⟨hle, hall⟩ := arrivedFrom_true ha
  exact ⟨by omega, fun j hj => hall j (Nat.zero_le _) (by omega)⟩

theorem arrivedFrom_of_present {h : HistData} {k i : Nat} (hk : i + k ≤ fnameMax)
    (hall : ∀ j : Fin fnameMax, i ≤ j.val → j.val < i + k → h.fname j ≠ none) :
    arrivedFrom h k i = some true := by
  induction k generalizing i with
  | zero => rfl
  | succ k ih =>
    have hi : i < fnameMax := by omega
    obtain ⟨p, hp⟩ := Option.ne_none_iff_exists'.mp
      (hall ⟨i, hi⟩ (le_refl i) (by simp only; omega))
    simp only [arrivedFrom, fnameAt, dif_pos hi, hp, Option.bind_eq_bind, Option.bind_some]
    exact ih (by omega) fun j hlo hhi => hall j (by omega) (by omega)

theorem arrivedFrom_of_missing {h : HistData} {k i : Nat} {j : Fin fnameMax} (hlo : i ≤ j.val)
    (hhi : j.val < i + k) (hj : h.fname j = none)
    (hall : ∀ u : Fin fnameMax, i ≤ u.val → u.val < j.val → h.fname u ≠ none) :
    arrivedFrom h k i = some false := by
  induction k generalizing i with
  | zero => omega
  | succ k ih =>
    have hi : i < fnameMax := by omega
    simp only [arrivedFrom, fnameAt, dif_pos hi, Option.bind_eq_bind, Option.bind_some]
    by_cases hij : i = j.val
    · have hfin : (⟨i, hi⟩ : Fin fnameMax) = j := Fin.ext hij
      rw [hfin, hj]
    · obtain ⟨p, hp⟩ := Option.ne_none_iff_exists'.mp
        (hall ⟨i, hi⟩ (le_refl i) (by simp only; omega))
      rw [hp]
      exact ih (by omega) (by omega) fun u hu huj => hall u (by omega) huj

theorem answer_replies {nsize : Nat} {h : HistData} {opt : Opt}
    {files : Fin transoptSize → FileRead} {heap : Memory} {r : GetReply}
    (ha : answer nsize h opt files heap = some (.replies r)) :
    arrived nsize h = some true ∧ ∃ n, serveGet nsize h opt files heap = some (n, some r) := by
  obtain ⟨b, hb, ha⟩ := Option.bind_eq_some_iff.mp ha
  cases b with
  | false => simp at ha
  | true =>
    refine ⟨hb, ?_⟩
    simp only [if_true] at ha
    obtain ⟨⟨n, r'⟩, hs, ha⟩ := Option.bind_eq_some_iff.mp ha
    cases r' with
    | none => simp at ha
    | some r' =>
      simp only [Option.some.injEq, Answer.replies.injEq] at ha
      rw [← ha]
      exact ⟨n, hs⟩

theorem take_finRange_eq_filter {n : Nat} (hn : n ≤ transoptSize) :
    (List.finRange transoptSize).take n = (List.finRange transoptSize).filter fun i => i.val < n := by
  revert n
  decide

/-- A complete entry is sent with every file asked for that can be opened. -/
theorem serveGet_carries {nsize n : Nat} {h : HistData} {opt : Opt}
    {files : Fin transoptSize → FileRead} {heap : Memory} {r : GetReply}
    (hall : ∀ j : Fin fnameMax, j.val < nsize → h.fname j ≠ none)
    (hs : serveGet nsize h opt files heap = some (n, some r)) :
    r.Carries h (((List.finRange transoptSize).take (min (leading opt) nsize)).filter fun i =>
      (files i).opens) := by
  obtain ⟨rfl, alloc, p, hp, _, rfl⟩ := serveGet_eq_some hs
  have hn : min nsize (leading opt) ≤ transoptSize := (Nat.min_le_right _ _).trans (leading_le opt)
  have hname : ∀ j : Fin fnameMax, j.val < 0 + min nsize (leading opt) → h.fname j ≠ none :=
    fun j hj => hall j (by omega)
  have hret := packFrom_retval hname hp
  have htmp := (packFrom_tmpstr hname hp rfl (show 0 < scmdStrsiz by decide)).1
  rw [Nat.min_comm]
  refine ⟨?_, ?_⟩
  · rw [take_finRange_eq_filter hn, List.filter_filter]
    apply List.filter_congr
    intro i _
    rw [Bool.eq_iff_iff, hret i]
    simp [Pack.start, and_comm]
  · rw [List.filterMap_filter]
    show p.tmpstr.dropLast = _
    rw [htmp, Nat.zero_add]
    rfl

theorem independent_self (sn : Nat) : Independent sn sn := by
  have hfiles : ∀ h opt files heap r, answer sn h opt files heap = some (.replies r) →
      r.Carries h (((List.finRange transoptSize).take (min (leading opt) sn)).filter fun i =>
        (files i).opens) := by
    intro h opt files heap r ha
    obtain ⟨harr, n, hs⟩ := answer_replies ha
    exact serveGet_carries (arrived_true harr).2 hs
  refine ⟨fun _ _ _ _ => rfl, ?_, hfiles, ?_⟩
  · intro h opt files heap r ha
    exact (arrived_true (answer_replies ha).1).2
  · intro h opt files heap r ha
    have hn : min (leading opt) sn ≤ transoptSize := (Nat.min_le_left _ _).trans (leading_le opt)
    have hlen : ((List.finRange transoptSize).take (min (leading opt) sn)).length =
        min (leading opt) sn := by
      rw [List.length_take, List.length_finRange, Nat.min_eq_left hn]
    rw [(hfiles h opt files heap r ha).entries]
    nth_rewrite 2 [← hlen]
    rw [List.length_filter_eq_length_iff, take_finRange_eq_filter hn]
    simp

def partialEntry (nsize : Nat) : HistData :=
  ⟨1, fun i => if i.val < nsize then some .empty else none⟩

/-- A lowered threshold shows: the partial entry is no longer waited for. -/
theorem not_independent {sn nsize : Nat} (hlt : nsize < sn) (hsn : sn ≤ fnameMax) :
    ¬ Independent sn nsize := by
  intro hI
  have harr : arrived nsize (partialEntry nsize) = some true :=
    arrivedFrom_of_present (by omega) fun j _ hj => by
      have : j.val < nsize := by omega
      simp [partialEntry, this]
  have hmiss : arrived sn (partialEntry nsize) = some false :=
    arrivedFrom_of_missing (j := ⟨nsize, by omega⟩) (Nat.zero_le _) (by simp only; omega)
      (by simp [partialEntry]) fun u _ hu => by
        have hu' : u.val < nsize := hu
        simp [partialEntry, hu']
  have hsame := hI.same (partialEntry nsize) (fun _ => 0) (fun _ => .noOpen) (fun _ => 0)
  simp only [answer, harr, hmiss, Option.bind_eq_bind, Option.bind_some, if_true] at hsame
  cases hs : serveGet nsize (partialEntry nsize) (fun _ => 0) (fun _ => .noOpen) fun _ => 0 with
  | none => simp [hs] at hsame
  | some res =>
    obtain ⟨n, r⟩ := res
    cases r <;> simp [hs] at hsame

structure Threshold (sn : Nat) (s : State) : Prop where
  le : s.nsize ≤ sn
  small : s.nsize < sn → sn ≤ fnameMax
  serving : ∀ opt hp, s.pc = .serve opt hp → s.nsize ≤ fnameMax

/-- The thread comes to serve a request only through the completeness check. -/
theorem serve_of_step {s s' : State} {l : Label} {opt : Opt} {hp : Nat} (h : step s l = some s')
    (hpc : s'.pc = .serve opt hp) :
    s'.nsize = s.nsize ∧
      (s.pc = .serve opt hp ∨ arrived s.nsize (s.ring.history hp) = some true) := by
  cases step_cases h with
  | histput => exact ⟨rfl, Or.inl hpc⟩
  | command cmd opt' hcmd => cases cmd <;> simp [State.dispatch, hcmd] at hpc
  | histget req res _ _ =>
    obtain ⟨r, o⟩ := res
    cases o <;> cases hpc
  | histgetWake req res _ _ =>
    obtain ⟨r, o⟩ := res
    cases o <;> cases hpc
  | test req hp' s' _ ht =>
    cases test_cases ht with
    | missing => cases hpc
    | opened => cases hpc
    | served opt' harr =>
      simp only [Pc.serve.injEq] at hpc
      rw [← hpc.2]
      exact ⟨rfl, Or.inr harr⟩
  | getReply files heap sent opt' hp' s' _ hrep =>
    rcases pc_reply hrep with hpc' | hpc' | hpc' <;> (rw [hpc'] at hpc; cases hpc)
  | histremove cmd r _ _ =>
    rw [pc_removed] at hpc
    cases hpc
  | accept | histwait | histwaitWake | opened | notOpened => cases hpc

/-- A step that serves no request keeps `nsize`; one that does takes the minimum. -/
theorem step_nsize {s s' : State} {l : Label} (h : step s l = some s') :
    (s'.nsize = s.nsize ∧ ∀ sn, FullRequest sn s l) ∨
      ∃ opt hp, s.pc = .serve opt hp ∧ s'.nsize = min s.nsize (leading opt) ∧
        ∀ sn, FullRequest sn s l ↔ sn ≤ leading opt := by
  cases step_effect h with
  | histput path dt tent hl _ hn _ =>
    subst hl
    exact Or.inl ⟨hn, fun sn => by unfold FullRequest; split <;> simp_all⟩
  | histremove hl _ hn =>
    subst hl
    exact Or.inl ⟨hn, fun sn => by unfold FullRequest; split <;> simp_all⟩
  | getReply files heap sent opt hp hl hpc _ hn =>
    subst hl
    exact Or.inr ⟨opt, hp, hpc, hn, fun sn => by simp [FullRequest, hpc]⟩
  | quiet _ _ hrep _ hn =>
    refine Or.inl ⟨hn, fun sn => ?_⟩
    unfold FullRequest
    split
    · exact absurd rfl (hrep _ _ _)
    · trivial

theorem threshold_step {sn : Nat} {s s' : State} {l : Label} (hT : Threshold sn s)
    (h : step s l = some s') : Threshold sn s' := by
  have hserving : ∀ opt hp, s'.pc = .serve opt hp → s'.nsize ≤ fnameMax := by
    intro opt hp hpc
    obtain ⟨hn, hold | harr⟩ := serve_of_step h hpc
    · rw [hn]
      exact hT.serving opt hp hold
    · rw [hn]
      exact (arrived_true harr).1
  rcases step_nsize h with ⟨hn, _⟩ | ⟨opt, hp, hpc, hn, _⟩
  · exact ⟨by rw [hn]; exact hT.le, by rw [hn]; exact hT.small, hserving⟩
  · have hle := hT.le
    have hsmall := hT.small
    have hserve := hT.serving opt hp hpc
    exact ⟨by omega, fun _ => by omega, hserving⟩

theorem exec_threshold {nh : Int} {sn : Nat} {ls : List Label} {s : State}
    (h : exec step (init nh sn) ls = some s) : Threshold sn s :=
  exec_invariant (fun hT hstep => threshold_step hT hstep)
    ⟨le_refl sn, fun hlt => absurd hlt (lt_irrefl sn), fun _ _ hpc => by cases hpc⟩ h

/-- `nsize` is still `sync_nsize()` exactly if every request served so far was full. -/
theorem nsize_eq_iff {nh : Int} {sn : Nat} {ls : List Label} {s : State}
    (h : exec step (init nh sn) ls = some s) :
    s.nsize = sn ↔ Along step (FullRequest sn) (init nh sn) ls := by
  induction ls using List.reverseRecOn generalizing s with
  | nil =>
    obtain rfl : init nh sn = s := by simpa using h
    exact ⟨fun _ => along_nil, fun _ => rfl⟩
  | append_singleton ls l ih =>
    obtain ⟨t, ht, hstep⟩ := exec_snoc_iff.mp h
    rw [along_snoc_iff ht, ← ih ht]
    have hle := (exec_threshold ht).le
    rcases step_nsize hstep with ⟨hn, hfull⟩ | ⟨opt, hp, _, hn, hiff⟩
    · rw [hn]
      exact ⟨fun he => ⟨he, hfull sn⟩, fun he => he.1⟩
    · rw [hiff sn, hn]
      omega

end JitDt.Lwatcher
