import JitDt.Lib.RingIndex
import JitDt.Lib.BoundedQueue
import JitDt.Misclib.History

/-!
# Positions and dates of the history ring

`At r P C` gives the producer's and the consumer's entry absolute positions. It
holds in every state the C code can reach, also after a `histremove` on an empty
ring, and says that the dates of the last `nhist` positions increase. While
`numhist` is not negative the ring is a bounded queue of dates, the slots from
`conshistp` on being its items.
-/

namespace JitDt.Misclib

set_option autoImplicit false

open RingIndex

def Ring.date (r : Ring) (i : Nat) : Nat := (r.history i).date

def Ring.used (r : Ring) : Nat := if r.date r.prodhistp = 0 then 0 else 1

/-- The producer's entry has absolute position `P`, the consumer's `C`. -/
structure At (r : Ring) (P C : Nat) : Prop where
  size : keepFileCount + 2 ≤ r.nhist
  prod : r.prodhistp = P % r.nhist
  cons : r.conshistp = C % r.nhist
  fresh : r.date r.prodhistp = 0 → P = 0
  num : r.numhist = P + r.used - C
  num_le : r.numhist ≤ r.nhist - keepFileCount
  newest : ∀ i, r.date i ≤ r.date r.prodhistp
  sorted : ∀ a b, a < b → b ≤ P → P < a + r.nhist → r.date (a % r.nhist) < r.date (b % r.nhist)

@[simp] theorem date_signal (r : Ring) (i : Nat) : r.signal.date i = r.date i := rfl

@[simp] theorem date_store (r : Ring) (i j : Nat) (t : Fin fnameMax) (cp : Path) :
    (r.store i t cp).date j = r.date j := by
  by_cases h : j = i
  · subst h
    simp [Ring.date, Ring.store, Ring.withEntry]
  · simp [Ring.date, Ring.store, Ring.withEntry, h]

@[simp] theorem date_removed (r : Ring) (j : Nat) : r.removed.date j = r.date j := by
  by_cases h : j = r.rmhistp
  · subst h
    simp [Ring.date, Ring.removed]
  · simp [Ring.date, Ring.removed, h]

@[simp] theorem date_roomy (r : Ring) (j : Nat) : r.roomy.date j = r.date j := by
  unfold Ring.roomy
  split
  · rw [date_removed]
    rfl
  · rfl

theorem date_opened_self (r : Ring) (d : Nat) (t : Fin fnameMax) (cp : Path) :
    (r.opened d t cp).date (nextEntry r) = d := by
  simp [Ring.date, Ring.opened, Ring.withEntry]

theorem date_opened_other {r : Ring} {d j : Nat} {t : Fin fnameMax} {cp : Path}
    (hj : j ≠ nextEntry r) : (r.opened d t cp).date j = r.date j := by
  rw [← date_roomy r j]
  simp [Ring.date, Ring.opened, Ring.withEntry, hj]

@[simp] theorem opened_nhist (r : Ring) (d : Nat) (t : Fin fnameMax) (cp : Path) :
    (r.opened d t cp).nhist = r.nhist := by
  unfold Ring.opened Ring.roomy
  split <;> rfl

@[simp] theorem opened_prodhistp (r : Ring) (d : Nat) (t : Fin fnameMax) (cp : Path) :
    (r.opened d t cp).prodhistp = nextEntry r := Ring.roomy_prodhistp r

theorem opened_conshistp (r : Ring) (d : Nat) (t : Fin fnameMax) (cp : Path) :
    (r.opened d t cp).conshistp =
      if r.Full then updatePointer r.nhist r.conshistp else r.conshistp := by
  unfold Ring.opened Ring.roomy
  split <;> rfl

theorem opened_numhist (r : Ring) (d : Nat) (t : Fin fnameMax) (cp : Path) :
    (r.opened d t cp).numhist = if r.Full then r.numhist else r.numhist + 1 := by
  unfold Ring.opened Ring.roomy
  split
  · show r.numhist + 1 - 1 = r.numhist
    omega
  · rfl

namespace At

variable {r r' : Ring} {P C : Nat}

theorem pos (h : At r P C) : 0 < r.nhist := by
  have := h.size
  unfold keepFileCount at this
  omega

theorem congr (h : At r P C) (hn : r'.nhist = r.nhist) (hp : r'.prodhistp = r.prodhistp)
    (hc : r'.conshistp = r.conshistp) (hnum : r'.numhist = r.numhist)
    (hd : ∀ i, r'.date i = r.date i) : At r' P C where
  size := by rw [hn]; exact h.size
  prod := by rw [hn, hp]; exact h.prod
  cons := by rw [hn, hc]; exact h.cons
  fresh := by rw [hp, hd]; exact h.fresh
  num := by
    have hu : r'.used = r.used := by simp only [Ring.used, hp, hd]
    rw [hnum, hu]
    exact h.num
  num_le := by rw [hnum, hn]; exact h.num_le
  newest := by
    intro i
    rw [hp, hd, hd]
    exact h.newest i
  sorted := by
    intro a b
    rw [hn, hd, hd]
    exact h.sorted a b

theorem signal (h : At r P C) : At r.signal P C := h.congr rfl rfl rfl rfl fun _ => rfl

theorem store (h : At r P C) (i : Nat) (t : Fin fnameMax) (cp : Path) :
    At (r.store i t cp) P C := h.congr rfl rfl rfl rfl fun _ => date_store _ _ _ _ _

theorem removed (h : At r P C) : At r.removed P (C + 1) where
  size := h.size
  prod := h.prod
  cons := by
    show updatePointer r.nhist r.conshistp = (C + 1) % r.nhist
    rw [h.cons]
    exact next_mod r.nhist C
  fresh := by
    intro h0
    rw [date_removed] at h0
    exact h.fresh h0
  num := by
    have hu : r.removed.used = r.used := by
      simp only [Ring.used, date_removed]
      rfl
    have hn := h.num
    rw [hu]
    show r.numhist - 1 = _
    push_cast
    omega
  num_le := by
    have := h.num_le
    show r.numhist - 1 ≤ _
    simp only [Ring.removed]
    omega
  newest := by
    intro i
    rw [date_removed, date_removed]
    exact h.newest i
  sorted := by
    intro a b
    rw [date_removed, date_removed]
    exact h.sorted a b

/-- The slot of the next entry: position `P + 1`, or `0` for the first entry ever. -/
theorem nextEntry_eq (h : At r P C) : nextEntry r = (P + r.used) % r.nhist := by
  unfold nextEntry Ring.used
  by_cases h0 : r.date r.prodhistp = 0
  · have hP := h.fresh h0
    have h0' : (r.history r.prodhistp).date = 0 := h0
    rw [if_neg (by simp [h0']), if_pos h0, h.prod, hP]
  · have h0' : (r.history r.prodhistp).date ≠ 0 := h0
    rw [if_pos h0', if_neg h0, h.prod]
    exact next_mod r.nhist P

/-- Opening an entry newer than all others; a full ring gives up its oldest. -/
theorem opened (h : At r P C) {d : Nat} (hd : r.date r.prodhistp < d) (t : Fin fnameMax)
    (cp : Path) : At (r.opened d t cp) (P + r.used) (if r.Full then C + 1 else C) where
  size := by rw [opened_nhist]; exact h.size
  prod := by rw [opened_nhist, opened_prodhistp]; exact h.nextEntry_eq
  cons := by
    rw [opened_nhist, opened_conshistp]
    split
    · rw [h.cons]
      exact next_mod r.nhist C
    · exact h.cons
  fresh := by
    rw [opened_prodhistp, date_opened_self]
    omega
  num := by
    have hu : (r.opened d t cp).used = 1 := by
      simp only [Ring.used, opened_prodhistp, date_opened_self]
      exact if_neg (by omega)
    have hn := h.num
    rw [opened_numhist, hu]
    split <;> (push_cast; omega)
  num_le := by
    rw [opened_numhist, opened_nhist]
    split
    · exact h.num_le
    · rename_i hf
      have hf' : ¬ (r.nhist : Int) - keepFileCount < r.numhist + 1 := hf
      omega
  newest := by
    intro i
    rw [opened_prodhistp, date_opened_self]
    by_cases hi : i = nextEntry r
    · rw [hi, date_opened_self]
    · rw [date_opened_other hi]
      have := h.newest i
      omega
  sorted := by
    intro a b hab hbP hPa
    rw [opened_nhist] at *
    -- only position `P + r.used` lies in the slot that got the new date
    have hslot := h.nextEntry_eq
    have ha : a % r.nhist ≠ nextEntry r := by
      rw [hslot]
      exact mod_ne_of_lt (by omega) hPa
    rw [date_opened_other ha]
    by_cases hb : b = P + r.used
    · rw [hb, ← hslot, date_opened_self]
      have := h.newest (a % r.nhist)
      omega
    · have hb' : b % r.nhist ≠ nextEntry r := by
        rw [hslot]
        exact mod_ne_of_lt (by omega) (by omega)
      have hused : r.used ≤ 1 := by
        unfold Ring.used
        split <;> omega
      rw [date_opened_other hb']
      exact h.sorted a b hab (by omega) (by omega)

end At

/-- A ring whose consumer has position `C`, also while the producer opens an entry. -/
structure ConsumerAt (r : Ring) (C : Nat) : Prop where
  size : keepFileCount + 2 ≤ r.nhist
  cons : r.conshistp = C % r.nhist

theorem ConsumerAt.rmhistp_eq {r : Ring} {C : Nat} (h : ConsumerAt r C) :
    r.rmhistp = (C + 1 + (r.nhist - keepFileCount)) % r.nhist := by
  have hsize := h.size
  have hup : updatePointer r.nhist r.conshistp = (C + 1) % r.nhist := by
    rw [h.cons]
    exact next_mod r.nhist C
  show (updatePointer r.nhist r.conshistp + r.nhist - keepFileCount) % r.nhist = _
  rw [hup, Nat.add_sub_assoc (by omega), Nat.mod_add_mod]

theorem At.rmhistp_advanced {r : Ring} {P C : Nat} (h : At r P C) :
    r.advanced.rmhistp = (C + 1 + (r.nhist - keepFileCount)) % r.nhist := by
  have hcons : ConsumerAt r.advanced C := ⟨h.size, h.cons⟩
  exact hcons.rmhistp_eq

/-- What a completed `histput` does to the dates, the positions and the count. -/
inductive HistputEffect (r r' : Ring) (P C : Nat) (dt : Int64) (tent : Int) : Prop where
  | kept (hf : ¬ Forces r dt tent) (hat : At r' P C) (hd : ∀ i, r'.date i = r.date i)
      (hnum : r'.numhist = r.numhist)
  | opened (hat : At r' (P + r.used) (if Forces r dt tent then C + 1 else C))
      (hnew : r.date r.prodhistp < ull dt) (hself : r'.date (nextEntry r) = ull dt)
      (hother : ∀ j, j ≠ nextEntry r → r'.date j = r.date j)
      (hnum : r'.numhist = if Forces r dt tent then r.numhist else r.numhist + 1)

theorem At.histput_effect {r r' : Ring} {P C : Nat} {path : Path} {dt : Int64} {tent : Int}
    (h : At r P C) (hstep : Misclib.histput path dt tent r = some r') :
    HistputEffect r r' P C dt tent := by
  cases histput_cases hstep with
  | refused ht h' =>
    subst h'
    exact .kept (fun hf => hf.1 ht) h (fun _ => rfl) rfl
  | same t ht hp hd h' =>
    subst h'
    have hnf : ¬ Forces r dt tent := fun hf => absurd hf.2.1 (by rw [hd]; exact lt_irrefl _)
    exact .kept hnf (h.store _ _ _).signal (fun i => date_store r _ i t path) rfl
  | new t ht hp hd hin h' =>
    subst h'
    have hrange : ¬(tent < 0 ∨ tent > (fnameMax : Int)) := by
      have := t.isLt
      omega
    have hiff : Forces r dt tent ↔ r.Full := ⟨fun hf => hf.2.2, fun hf => ⟨hrange, hd, hf⟩⟩
    have hother : ∀ j, j ≠ nextEntry r → (r.opened (ull dt) t path).signal.date j = r.date j :=
      fun j hj => date_opened_other hj
    refine .opened ?_ hd (date_opened_self r _ t path) hother ?_
    · simp only [hiff]
      exact (h.opened hd t path).signal
    · simp only [hiff]
      exact opened_numhist r (ull dt) t path
  | late t ht i hi hd hdi hs h' =>
    subst h'
    have hnf : ¬ Forces r dt tent := fun hf => absurd hf.2.1 (by omega)
    exact .kept hnf (h.store _ _ _).signal (fun j => date_store r i j t path) rfl
  | lost ht hd hs h' =>
    subst h'
    have hnf : ¬ Forces r dt tent := fun hf => absurd hf.2.1 (by omega)
    exact .kept hnf (h.congr rfl rfl rfl rfl fun _ => rfl) (fun _ => rfl) rfl

/-- A completed `histput` keeps the positions, except that a new date opens one more. -/
theorem At.histput {r r' : Ring} {P C : Nat} {path : Path} {dt : Int64} {tent : Int}
    (h : At r P C) (hstep : Misclib.histput path dt tent r = some r') :
    ∃ P', At r' P' (if Forces r dt tent then C + 1 else C) := by
  cases h.histput_effect hstep with
  | kept hf hat _ _ => exact ⟨P, by rw [if_neg hf]; exact hat⟩
  | opened hat _ _ _ _ => exact ⟨_, hat⟩

theorem at_histinit (nh : Int) : At (histinit nh .static) 0 0 where
  size := by
    show keepFileCount + 2 ≤ if nh ≤ (keepFileCount + 1 : Nat) then keepFileCount + 2 else nh.toNat
    unfold keepFileCount
    split <;> omega
  prod := (Nat.zero_mod _).symm
  cons := (Nat.zero_mod _).symm
  fresh := fun _ => rfl
  num := rfl
  num_le := by
    show (0 : Int) ≤ ((if nh ≤ (keepFileCount + 1 : Nat) then keepFileCount + 2 else nh.toNat : Nat) : Int) -
      keepFileCount
    unfold keepFileCount
    split <;> omega
  newest := fun _ => Nat.zero_le _
  sorted := by
    intro a b hab hb
    omega

/-! ## Calls that return -/

/-- The pointers of a ring no larger than the array stay inside it. -/
structure Fits (r : Ring) : Prop where
  small : r.nhist ≤ maxHistory
  prod_lt : r.prodhistp < r.nhist
  cons_lt : r.conshistp < r.nhist

theorem At.fits {r : Ring} {P C : Nat} (h : At r P C) (hn : r.nhist ≤ maxHistory) : Fits r where
  small := hn
  prod_lt := by rw [h.prod]; exact Nat.mod_lt _ h.pos
  cons_lt := by rw [h.cons]; exact Nat.mod_lt _ h.pos

theorem rewindPointer_lt {n v : Nat} (hv : v < n) : rewindPointer n v < n := by
  unfold rewindPointer
  split <;> omega

theorem histremove_total {r : Ring} (h : Fits r) : _histremove r = some r.removed := by
  have hn := h.small
  have hc := h.cons_lt
  refine histremove_iff.mpr ⟨by omega, ?_, rfl⟩
  have : r.rmhistp < r.nhist := Nat.mod_lt _ (by omega)
  omega

theorem histsearch_total {r : Ring} (hn : r.nhist ≤ maxHistory) (d k : Nat) {start : Nat}
    (hs : start < r.nhist) : ∃ found, histsearch r d k start = some found := by
  induction k generalizing start with
  | zero => exact ⟨none, rfl⟩
  | succ k ih =>
    have hin : start < maxHistory := by omega
    simp only [histsearch, Ring.entry, if_pos hin, Option.bind_eq_bind, Option.bind_some]
    split
    · exact ⟨_, rfl⟩
    · exact ih (rewindPointer_lt hs)

theorem setFname_total {r : Ring} {i : Nat} (hi : i < maxHistory) (t : Fin fnameMax) (cp : Path) :
    r.setFname i t.val cp = some (r.store i t cp) := by
  simp [Ring.setFname, Ring.store, hi]

theorem nextEntry_lt {r : Ring} (h : Fits r) : nextEntry r < r.nhist := by
  have hp := h.prod_lt
  unfold nextEntry
  split
  · exact Nat.mod_lt _ (by omega)
  · exact hp

theorem histputNew_total {r : Ring} (h : Fits r) (path : Path) (d : Nat) (t : Fin fnameMax) :
    histputNew path d t.val r = some (r.opened d t path) := by
  have hn := h.small
  have hnext : nextEntry r < maxHistory := (nextEntry_lt h).trans_le hn
  have hroom : forceRoom { r with prodhistp := nextEntry r, numhist := r.numhist + 1 } =
      some r.roomy := by
    unfold forceRoom
    by_cases hf : r.Full
    · have hgt : (r.nhist : Int) - (keepFileCount : Int) < r.numhist + 1 := hf
      have hfit : Fits r.advanced := ⟨hn, nextEntry_lt h, h.cons_lt⟩
      rw [if_pos hgt, Ring.roomy, if_pos hf]
      exact histremove_total hfit
    · have hle : ¬ (r.nhist : Int) - (keepFileCount : Int) < r.numhist + 1 := hf
      rw [if_neg hle, Ring.roomy, if_neg hf]
      rfl
  unfold histputNew
  rw [hroom]
  simp only [Option.bind_eq_bind, Option.bind_some, Ring.setDate, Ring.roomy_prodhistp,
    if_pos hnext]
  show Ring.setFname _ r.roomy.prodhistp t.val path = _
  rw [Ring.roomy_prodhistp, setFname_total hnext]
  simp [Ring.store, Ring.opened, Ring.withEntry]

theorem histput_total {r : Ring} (h : Fits r) (path : Path) (dt : Int64) {tent : Int}
    (ht₀ : 0 ≤ tent) (ht : tent < fnameMax) : ∃ r', histput path dt tent r = some r' := by
  obtain ⟨t, rfl⟩ := Int.eq_ofNat_of_zero_le ht₀
  have htlt : t < fnameMax := by omega
  have hcur : r.prodhistp < maxHistory := h.prod_lt.trans_le h.small
  have hrange : ¬((t : Int) < 0 ∨ (t : Int) > (fnameMax : Int)) := by omega
  unfold histput
  rw [if_neg hrange]
  simp only [Ring.entry, if_pos hcur, Option.bind_eq_bind, Option.bind_some, Int.toNat_natCast]
  split
  · rw [setFname_total hcur ⟨t, htlt⟩]
    exact ⟨_, rfl⟩
  split
  · rw [histputNew_total h path (ull dt) ⟨t, htlt⟩]
    exact ⟨_, rfl⟩
  obtain ⟨found, hfound⟩ := histsearch_total h.small (ull dt) (r.nhist - 1)
    (rewindPointer_lt h.prod_lt)
  rw [hfound]
  cases found with
  | none => exact ⟨_, rfl⟩
  | some i =>
    simp only [Option.bind_some]
    rw [setFname_total (histsearch_found hfound).1 ⟨t, htlt⟩]
    exact ⟨_, rfl⟩

end JitDt.Misclib
