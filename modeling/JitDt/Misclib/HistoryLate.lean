import JitDt.Misclib.HistoryQueue

/-!
# Late files

A file older than the producer's entry belongs to an entry of its own date, or to none
that is left. The machine here takes every critical section of the history functions as
a step, the waits included. The written slots have positions, so their dates differ, and
the backward search looks at every slot but the producer's.
-/

namespace JitDt.Misclib

set_option autoImplicit false

open RingIndex Machine

inductive RingOp where
  | put (path : Path) (dt : Int64) (tent : Int)
  | get
  | getResume
  | remove
  | wait
  | waitResume

def ringStep (r : Ring) : RingOp → Option Ring
  | .put path dt tent => histput path dt tent r
  | .get => (histget r).map Prod.fst
  | .getResume => (histgetResume r).map Prod.fst
  | .remove => histremove r
  | .wait => some (histwait r)
  | .waitResume => histwaitResume r

/-- Only the bookkeeping of the waiting threads may differ. -/
structure SameEntries (r r' : Ring) : Prop where
  history : r'.history = r.history
  nhist : r'.nhist = r.nhist
  prodhistp : r'.prodhistp = r.prodhistp
  conshistp : r'.conshistp = r.conshistp
  numhist : r'.numhist = r.numhist
  unlinked : r'.unlinked = r.unlinked

theorem sameEntries_histget {r r' : Ring} {hp : Option Nat} (h : histget r = some (r', hp)) :
    SameEntries r r' := by
  unfold histget at h
  split at h
  · obtain ⟨_, _, h⟩ := Option.bind_eq_some_iff.mp h
    cases h
    exact ⟨rfl, rfl, rfl, rfl, rfl, rfl⟩
  · cases h
    exact ⟨rfl, rfl, rfl, rfl, rfl, rfl⟩

theorem sameEntries_histgetResume {r r' : Ring} {hp : Option Nat}
    (h : histgetResume r = some (r', hp)) : SameEntries r r' := by
  obtain ⟨c, _, h⟩ := Option.bind_eq_some_iff.mp h
  have hsame := sameEntries_histget h
  exact ⟨hsame.history, hsame.nhist, hsame.prodhistp, hsame.conshistp, hsame.numhist,
    hsame.unlinked⟩

inductive RingStepCases (r r' : Ring) : Prop where
  | put (path : Path) (dt : Int64) (tent : Int) (h : histput path dt tent r = some r')
  | removed (h : r' = r.removed)
  | idle (h : SameEntries r r')

theorem ringStep_cases {r r' : Ring} {op : RingOp} (h : ringStep r op = some r') :
    RingStepCases r r' := by
  cases op with
  | put path dt tent => exact .put path dt tent h
  | get =>
    obtain ⟨⟨_, hp⟩, hget, rfl⟩ := Option.map_eq_some_iff.mp h
    exact .idle (sameEntries_histget hget)
  | getResume =>
    obtain ⟨⟨_, hp⟩, hget, rfl⟩ := Option.map_eq_some_iff.mp h
    exact .idle (sameEntries_histgetResume hget)
  | remove =>
    obtain ⟨_, _, rfl⟩ := histremove_iff.mp h
    exact .removed rfl
  | wait =>
    cases h
    exact .idle ⟨rfl, rfl, rfl, rfl, rfl, rfl⟩
  | waitResume =>
    obtain ⟨c, _, hres⟩ := Option.bind_eq_some_iff.mp h
    cases hres
    exact .idle ⟨rfl, rfl, rfl, rfl, rfl, rfl⟩

theorem ringStep_nhist {r r' : Ring} {op : RingOp} (h : ringStep r op = some r') :
    r'.nhist = r.nhist := by
  cases ringStep_cases h with
  | put path dt tent hput => exact histput_nhist hput
  | removed hr => rw [hr]; rfl
  | idle hs => exact hs.nhist

/-- A slot that was ever written has a position in the ring. -/
structure Dated (r : Ring) (P C : Nat) : Prop extends At r P C where
  written : ∀ i, r.date i ≠ 0 → i < r.nhist ∧ i ≤ P

namespace Dated

variable {r r' : Ring} {P C : Nat}

theorem congr (h : Dated r P C) (hat : At r' P C) (hn : r'.nhist = r.nhist)
    (hd : ∀ i, r'.date i = r.date i) : Dated r' P C where
  toAt := hat
  written := by
    intro i hi
    rw [hd] at hi
    rw [hn]
    exact h.written i hi

theorem same (h : Dated r P C) (hs : SameEntries r r') : Dated r' P C := by
  have hd : ∀ i, r'.date i = r.date i := by
    intro i
    simp only [Ring.date, hs.history]
  exact h.congr (h.toAt.congr hs.nhist hs.prodhistp hs.conshistp hs.numhist hd) hs.nhist hd

theorem removed (h : Dated r P C) : Dated r.removed P (C + 1) where
  toAt := h.toAt.removed
  written := by
    intro i hi
    rw [date_removed] at hi
    exact h.written i hi

theorem histput {path : Path} {dt : Int64} {tent : Int} (h : Dated r P C)
    (hstep : Misclib.histput path dt tent r = some r') : ∃ P' C', Dated r' P' C' := by
  have hn : r'.nhist = r.nhist := histput_nhist hstep
  cases h.toAt.histput_effect hstep with
  | kept hf hat hd hnum => exact ⟨P, C, h.congr hat hn hd⟩
  | opened hat hnew hself hother hnum =>
    refine ⟨_, _, hat, ?_⟩
    intro i hi
    rw [hn]
    by_cases hslot : i = nextEntry r
    · rw [hslot, h.toAt.nextEntry_eq]
      exact ⟨Nat.mod_lt _ h.toAt.pos, Nat.mod_le _ _⟩
    · rw [hother i hslot] at hi
      have hw := h.written i hi
      omega

theorem step {op : RingOp} (h : Dated r P C) (hstep : ringStep r op = some r') :
    ∃ P' C', Dated r' P' C' := by
  cases ringStep_cases hstep with
  | put path dt tent hput => exact h.histput hput
  | removed hr => exact ⟨P, C + 1, hr ▸ h.removed⟩
  | idle hs => exact ⟨P, C, h.same hs⟩

theorem position (h : Dated r P C) {i : Nat} (hi : r.date i ≠ 0) :
    ∃ c, c ≤ P ∧ P < c + r.nhist ∧ c % r.nhist = i := by
  obtain ⟨hlt, hle⟩ := h.written i hi
  by_cases hP : P < r.nhist
  · exact ⟨i, hle, by omega, Nat.mod_eq_of_lt hlt⟩
  · exact exists_position hlt (by omega)

/-- Two slots with one date are one slot, live or consumed. -/
theorem date_injective (h : Dated r P C) {i j : Nat} (hi : r.date i ≠ 0)
    (hij : r.date i = r.date j) : i = j := by
  obtain ⟨a, haP, hPa, rfl⟩ := h.position hi
  obtain ⟨b, hbP, hPb, rfl⟩ := h.position (hij ▸ hi)
  rcases lt_trichotomy a b with hab | rfl | hba
  · have := h.sorted a b hab hbP hPa
    omega
  · rfl
  · have := h.sorted b a hba haP hPb
    omega

end Dated

theorem exec_dated {nh : Int} {ops : List RingOp} {r : Ring}
    (h : exec ringStep (histinit nh .static) ops = some r) :
    r.nhist = (histinit nh .static).nhist ∧ ∃ P C, Dated r P C := by
  refine exec_invariant (I := fun r => r.nhist = (histinit nh .static).nhist ∧
    ∃ P C, Dated r P C) ?_ ⟨rfl, 0, 0, at_histinit nh, ?_⟩ h
  · rintro s op t ⟨hs, P, C, hd⟩ hstep
    refine ⟨?_, hd.step hstep⟩
    rw [← hs]
    exact ringStep_nhist hstep
  · intro i hi
    exact absurd rfl hi

/-! ## The search -/

/-- A search that finds nothing has looked at the slots of `k` positions up to `a`. -/
theorem date_ne_of_histsearch_none {r : Ring} {d k a : Nat} (hn : 0 < r.nhist) (hk : k ≤ a + 1)
    (h : histsearch r d k (a % r.nhist) = some none) :
    ∀ c, c ≤ a → a < c + k → r.date (c % r.nhist) ≠ d := by
  induction k generalizing a with
  | zero =>
    intro c hca hac
    omega
  | succ k ih =>
    obtain ⟨e, he, hrest⟩ := Option.bind_eq_some_iff.mp h
    obtain ⟨_, rfl⟩ := entry_eq_some he
    split at hrest
    · cases hrest
    rename_i hne
    intro c hca hac
    rcases hca.eq_or_lt with rfl | hlt
    · exact fun hd => hne hd.symm
    · obtain ⟨b, rfl⟩ : ∃ b, a = b + 1 := ⟨a - 1, by omega⟩
      have hprev : rewindPointer r.nhist ((b + 1) % r.nhist) = b % r.nhist := prev_mod hn b
      rw [hprev] at hrest
      exact ih (by omega) hrest c (by omega) (by omega)

/-- The walk back from the producer's entry passes through all the other slots. -/
theorem At.date_ne_of_histsearch_none {r : Ring} {P C d : Nat} (h : At r P C)
    (hs : histsearch r d (r.nhist - 1) (rewindPointer r.nhist r.prodhistp) = some none) {i : Nat}
    (hi : i < r.nhist) (hp : i ≠ r.prodhistp) : r.date i ≠ d := by
  have hpos := h.pos
  have hstart : rewindPointer r.nhist r.prodhistp = (P + (r.nhist - 1)) % r.nhist := by
    have hturn : r.prodhistp = (P + (r.nhist - 1) + 1) % r.nhist := by
      rw [h.prod, show P + (r.nhist - 1) + 1 = P + r.nhist by omega, Nat.add_mod_right]
    rw [hturn]
    exact prev_mod hpos _
  rw [hstart] at hs
  obtain ⟨c, hcP, hPc, rfl⟩ := exists_position hi (Nat.le_add_left r.nhist P)
  have hc : c ≠ P + r.nhist := by
    rintro rfl
    rw [h.prod, Nat.add_mod_right] at hp
    exact hp rfl
  exact Misclib.date_ne_of_histsearch_none hpos (by omega) hs c (by omega) (by omega)

/-- One path is stored in one place and the rest of the ring stays. -/
structure Filed (r r' : Ring) (i : Nat) (tent : Fin fnameMax) (path : Path) : Prop where
  stored : (r'.history i).fname tent = some path
  files : ∀ j u, (j, u) ≠ (i, tent) → (r'.history j).fname u = (r.history j).fname u
  dates : ∀ j, r'.date j = r.date j
  nhist : r'.nhist = r.nhist
  prodhistp : r'.prodhistp = r.prodhistp
  conshistp : r'.conshistp = r.conshistp
  numhist : r'.numhist = r.numhist
  unlinked : r'.unlinked = r.unlinked

theorem filed_store (r : Ring) (i : Nat) (tent : Fin fnameMax) (path : Path) :
    Filed r (r.store i tent path).signal i tent path where
  stored := by simp [Ring.signal, Ring.store, Ring.withEntry]
  files := by
    intro j u hne
    by_cases hj : j = i
    · subst hj
      have hu : u ≠ tent := fun h => hne (by rw [h])
      simp [Ring.signal, Ring.store, Ring.withEntry, hu]
    · simp [Ring.signal, Ring.store, Ring.withEntry, hj]
  dates := fun j => date_store r i j tent path
  nhist := rfl
  prodhistp := rfl
  conshistp := rfl
  numhist := rfl
  unlinked := rfl

/-- Whatever calls came before, a file older than the producer's entry goes to the one slot
of its date, or is unlinked when no slot has it. -/
theorem late_file_filed {nh : Int} (hn : (histinit nh .static).nhist ≤ maxHistory)
    {ops : List RingOp} {r : Ring} (hr : exec ringStep (histinit nh .static) ops = some r)
    (path : Path) {dt : Int64} (tent : Fin fnameMax) (hdt : 1 ≤ dt)
    (hlt : ull dt < r.date r.prodhistp) :
    (∀ i j, r.date i = ull dt → r.date j = ull dt → i = j) ∧
      ∃ r', histput path dt tent.val r = some r' ∧
        (∀ i, r.date i = ull dt → i < r.nhist ∧ Filed r r' i tent path) ∧
        ((∀ i < r.nhist, r.date i ≠ ull dt) →
          r' = { r with unlinked := r.unlinked ++ [path] }) := by
  obtain ⟨hsize, P, C, hd⟩ := exec_dated hr
  have hpos : ull dt ≠ 0 := (ull_pos hdt).ne'
  have hinj : ∀ i j, r.date i = ull dt → r.date j = ull dt → i = j := by
    intro i j hi hj
    exact hd.date_injective (by omega) (hi.trans hj.symm)
  refine ⟨hinj, ?_⟩
  have hfits : Fits r := hd.toAt.fits (by rw [hsize]; exact hn)
  have htent := tent.isLt
  obtain ⟨r', hput⟩ := histput_total hfits path dt (Int.natCast_nonneg tent.val) (by omega)
  refine ⟨r', hput, ?_⟩
  cases histput_cases hput with
  | refused ht h' => exact absurd ht (by omega)
  | same t ht hp hcur h' => exact absurd hcur hlt.ne
  | new t ht hp hcur hin h' => exact absurd hcur hlt.not_gt
  | late t ht i hi hcur hdi hs h' =>
    obtain rfl : tent = t := Fin.ext (by omega)
    have hslot : r.date i = ull dt := hdi.symm
    constructor
    · intro j hj
      obtain rfl := hinj i j hslot hj
      refine ⟨(hd.written i (by omega)).1, ?_⟩
      rw [h']
      exact filed_store r i tent path
    · intro hnone
      exact absurd hslot (hnone i (hd.written i (by omega)).1)
  | lost ht hcur hs h' =>
    constructor
    · intro i hi
      have hin := (hd.written i (by omega)).1
      have hprod : i ≠ r.prodhistp := by
        rintro rfl
        omega
      exact absurd hi (hd.toAt.date_ne_of_histsearch_none hs hin hprod)
    · intro _
      exact h'

/-- In a ring of five the entry of date 20 is consumed when its second file arrives. -/
theorem late_file_filed_consumed :
    ∃ r r', exec ringStep (histinit 5 .static)
        [.put ⟨[97], by decide⟩ 20 0, .put ⟨[98], by decide⟩ 30 0, .get, .remove] = some r ∧
      histput ⟨[99], by decide⟩ 20 1 r = some r' ∧
      (r'.history 0).fname 1 = some ⟨[99], by decide⟩ := by
  obtain ⟨_, r', hput, hfiled, _⟩ := @late_file_filed 5 (by decide)
    [.put ⟨[97], by decide⟩ 20 0, .put ⟨[98], by decide⟩ 30 0, .get, .remove] _ rfl
    ⟨[99], by decide⟩ 20 1 (by decide) (by decide)
  exact ⟨_, r', rfl, hput, (hfiled 0 rfl).2.stored⟩

end JitDt.Misclib
