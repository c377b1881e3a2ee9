import JitDt.Lib.Machine
import JitDt.Lib.Memory

/-!
# The history ring of misclib.c

`Ring` holds the static variables of misclib.c that the history functions share.
Every function here is one critical section of the C code: it runs with `mutex`
held, so it is one atomic step. `none` is undefined behaviour, an access to
`history` or `fname` outside its bounds.

Dates are `unsigned long long` and are compared as such after the `long long`
argument was converted. Files are named by their paths; `unlinked` is the list of
all `unlink` calls so far.
-/

namespace JitDt.Misclib

set_option autoImplicit false

abbrev Path := CStr

abbrev fnameMax : Nat := 3
def maxHistory : Nat := 20
def keepFileCount : Nat := 3

/-- The conversion of a `long long` to the `unsigned long long` it is compared with. -/
def ull (dt : Int64) : Nat := dt.toUInt64.toNat

structure HistData where
  date : Nat
  fname : Fin fnameMax → Option Path

def HistData.zero : HistData := ⟨0, fun _ => none⟩

/-- The non-NULL paths of an entry, in the order of the type index. -/
def HistData.files (h : HistData) : List Path := (List.finRange fnameMax).filterMap h.fname

/-- A condition variable: threads blocked on it and threads already woken up. -/
structure Cond where
  blocked : Nat
  woken : Nat

namespace Cond

def zero : Cond := ⟨0, 0⟩

def wait (c : Cond) : Cond := { c with blocked := c.blocked + 1 }

def signal (c : Cond) : Cond :=
  if c.blocked = 0 then c else ⟨c.blocked - 1, c.woken + 1⟩

/-- A waiter leaves `pthread_cond_wait`, after a signal or spuriously. -/
def resume (c : Cond) : Option Cond :=
  if c.woken ≠ 0 then some { c with woken := c.woken - 1 }
  else if c.blocked ≠ 0 then some { c with blocked := c.blocked - 1 }
  else none

end Cond

structure Ring where
  history : Nat → HistData
  nhist : Nat
  prodhistp : Nat
  conshistp : Nat
  numhist : Int
  waithist : Nat
  waithist2 : Nat
  cond : Cond
  cond2 : Cond
  unlinked : List Path

def Ring.static : Ring where
  history := fun _ => .zero
  nhist := 0
  prodhistp := 0
  conshistp := 0
  numhist := 0
  waithist := 0
  waithist2 := 0
  cond := .zero
  cond2 := .zero
  unlinked := []

def updatePointer (nhist v : Nat) : Nat := (v + 1) % nhist

def rewindPointer (nhist v : Nat) : Nat := (if v = 0 then nhist else v) - 1

def histinit (nh : Int) (r : Ring) : Ring :=
  { r with
    nhist := if nh ≤ (keepFileCount + 1 : Nat) then keepFileCount + 2 else nh.toNat
    prodhistp := 0
    conshistp := 0
    numhist := 0
    waithist := 0
    cond := .zero
    cond2 := .zero }

namespace Ring

def entry (r : Ring) (i : Nat) : Option HistData :=
  if i < maxHistory then some (r.history i) else none

def withEntry (r : Ring) (i : Nat) (h : HistData) : Ring :=
  { r with history := Function.update r.history i h }

/-- `history[i].fname[t] = cp`, both indices inside their arrays. -/
def setFname (r : Ring) (i t : Nat) (cp : Path) : Option Ring :=
  if ht : t < fnameMax then
    if i < maxHistory then
      some (r.withEntry i { r.history i with
        fname := Function.update (r.history i).fname ⟨t, ht⟩ (some cp) })
    else none
  else none

def setDate (r : Ring) (i d : Nat) : Option Ring :=
  if i < maxHistory then some (r.withEntry i { r.history i with date := d }) else none

/-- Unlink and free every file of an entry. -/
def clear (r : Ring) (i : Nat) : Option Ring :=
  if i < maxHistory then
    some { r.withEntry i { r.history i with fname := fun _ => none } with
      unlinked := r.unlinked ++ (r.history i).files }
  else none

/-- The two `pthread_cond_signal` calls at the end of `histput`. -/
def signal (r : Ring) : Ring :=
  { r with
    cond := if r.waithist ≠ 0 then r.cond.signal else r.cond
    cond2 := if r.waithist2 ≠ 0 then r.cond2.signal else r.cond2 }

end Ring

/-- The consumer pointer moves first; the slot cleared is the one `keepFileCount`
behind it. -/
def _histremove (r : Ring) : Option Ring := do
  let _ ← r.entry r.conshistp
  let conshistp := updatePointer r.nhist r.conshistp
  let rmhistp := (conshistp + r.nhist - keepFileCount) % r.nhist
  Ring.clear { r with conshistp := conshistp, numhist := r.numhist - 1 } rmhistp

def histremove (r : Ring) : Option Ring := _histremove r

/-- `histget` from the label `retry` on: the slot to hand out, or the caller goes
to sleep on `cond`. -/
def histget (r : Ring) : Option (Ring × Option Nat) :=
  if 0 < r.numhist then do
    let _ ← r.entry r.conshistp
    some (r, some r.conshistp)
  else some ({ r with waithist := r.waithist + 1, cond := r.cond.wait }, none)

def histgetResume (r : Ring) : Option (Ring × Option Nat) := do
  let c ← r.cond.resume
  histget { r with waithist := r.waithist - 1, cond := c }

def histwait (r : Ring) : Ring :=
  { r with waithist2 := r.waithist2 + 1, cond2 := r.cond2.wait }

def histwaitResume (r : Ring) : Option Ring := do
  let c ← r.cond2.resume
  some { r with waithist2 := r.waithist2 - 1, cond2 := c }

/-- The backward search for a late file, `i` slots still to be looked at. -/
def histsearch (r : Ring) (d : Nat) : Nat → Nat → Option (Option Nat)
  | 0, _ => some none
  | i + 1, oldprodp => do
    let h ← r.entry oldprodp
    if d = h.date then some (some oldprodp)
    else histsearch r d i (rewindPointer r.nhist oldprodp)

/-- The producer moves on, except from the slot that was never used. -/
def nextEntry (r : Ring) : Nat :=
  if (r.history r.prodhistp).date ≠ 0 then updatePointer r.nhist r.prodhistp else r.prodhistp

/-- Consume and remove the oldest entry by force when there is one too many. -/
def forceRoom (r : Ring) : Option Ring :=
  if r.numhist > (r.nhist : Int) - (keepFileCount : Int) then _histremove r else some r

/-- `histput` with a date newer than the current one: a new entry is opened. -/
def histputNew (path : Path) (d t : Nat) (r : Ring) : Option Ring := do
  let r₂ ← forceRoom { r with prodhistp := nextEntry r, numhist := r.numhist + 1 }
  let r₃ ← r₂.setDate r₂.prodhistp d
  r₃.setFname r₃.prodhistp t path

def histput (path : Path) (dt : Int64) (tent : Int) (r : Ring) : Option Ring :=
  if tent < 0 ∨ tent > (fnameMax : Int) then some r
  else do
    let cur ← r.entry r.prodhistp
    if ull dt = cur.date then
      let r' ← r.setFname r.prodhistp tent.toNat path
      some r'.signal
    else if ull dt > cur.date then
      let r' ← histputNew path (ull dt) tent.toNat r
      some r'.signal
    else
      match ← histsearch r (ull dt) (r.nhist - 1) (rewindPointer r.nhist r.prodhistp) with
      | some oldprodp =>
        let r' ← r.setFname oldprodp tent.toNat path
        some r'.signal
      | none => some { r with unlinked := r.unlinked ++ [path] }

/-! What one call can do, said once. -/

namespace Ring

def store (r : Ring) (i : Nat) (t : Fin fnameMax) (cp : Path) : Ring :=
  r.withEntry i { r.history i with fname := Function.update (r.history i).fname t (some cp) }

/-- The slot `_histremove` clears. -/
def rmhistp (r : Ring) : Nat :=
  (updatePointer r.nhist r.conshistp + r.nhist - keepFileCount) % r.nhist

def removed (r : Ring) : Ring :=
  { r with
    history := Function.update r.history r.rmhistp { r.history r.rmhistp with fname := fun _ => none }
    conshistp := updatePointer r.nhist r.conshistp
    numhist := r.numhist - 1
    unlinked := r.unlinked ++ (r.history r.rmhistp).files }

/-- The producer on the entry about to be opened, already counted. -/
def advanced (r : Ring) : Ring :=
  { r with prodhistp := nextEntry r, numhist := r.numhist + 1 }

def Full (r : Ring) : Prop := (r.nhist : Int) - keepFileCount < r.numhist + 1

instance (r : Ring) : Decidable r.Full := inferInstanceAs (Decidable (_ < _))

/-- The ring in which the new entry is registered: the oldest one was dropped if need be. -/
def roomy (r : Ring) : Ring := if r.Full then r.advanced.removed else r.advanced

/-- A new entry with date `d` and one file. -/
def opened (r : Ring) (d : Nat) (t : Fin fnameMax) (cp : Path) : Ring :=
  r.roomy.withEntry (nextEntry r)
    { date := d, fname := Function.update (r.roomy.history (nextEntry r)).fname t (some cp) }

@[simp] theorem roomy_prodhistp (r : Ring) : r.roomy.prodhistp = nextEntry r := by
  unfold roomy
  split <;> rfl

end Ring

/-- This `histput` makes the ring drop its oldest entry. -/
def Forces (r : Ring) (dt : Int64) (tent : Int) : Prop :=
  ¬(tent < 0 ∨ tent > (fnameMax : Int)) ∧ (r.history r.prodhistp).date < ull dt ∧ r.Full

instance (r : Ring) (dt : Int64) (tent : Int) : Decidable (Forces r dt tent) :=
  inferInstanceAs (Decidable (_ ∧ _))

theorem entry_eq_some {r : Ring} {i : Nat} {h : HistData} (he : r.entry i = some h) :
    i < maxHistory ∧ h = r.history i := by
  unfold Ring.entry at he
  split at he
  · rename_i hi
    exact ⟨hi, (Option.some.inj he).symm⟩
  · cases he

theorem setFname_eq_some {r r' : Ring} {i t : Nat} {cp : Path} (h : r.setFname i t cp = some r') :
    ∃ ht : t < fnameMax, i < maxHistory ∧ r' = r.store i ⟨t, ht⟩ cp := by
  unfold Ring.setFname at h
  split at h
  · rename_i ht
    split at h
    · rename_i hi
      exact ⟨ht, hi, (Option.some.inj h).symm⟩
    · cases h
  · cases h

theorem histremove_iff {r r' : Ring} : _histremove r = some r' ↔
    r.conshistp < maxHistory ∧ r.rmhistp < maxHistory ∧ r' = r.removed := by
  unfold _histremove Ring.entry Ring.clear Ring.rmhistp
  by_cases hc : r.conshistp < maxHistory
  · by_cases hr : (updatePointer r.nhist r.conshistp + r.nhist - keepFileCount) % r.nhist < maxHistory
    · simp only [hc, hr, if_true, true_and]
      exact ⟨fun h => (Option.some.inj h).symm, fun h => congrArg some h.symm⟩
    · simp [hc, hr]
  · simp [hc]

theorem histsearch_found {r : Ring} {d k start i : Nat}
    (h : histsearch r d k start = some (some i)) : i < maxHistory ∧ d = (r.history i).date := by
  induction k generalizing start with
  | zero => simp [histsearch] at h
  | succ k ih =>
    obtain ⟨e, he, hrest⟩ := Option.bind_eq_some_iff.mp h
    obtain ⟨hi, rfl⟩ := entry_eq_some he
    split at hrest
    · rename_i hd
      obtain rfl : start = i := by simpa using hrest
      exact ⟨hi, hd⟩
    · exact ih hrest

theorem histputNew_eq_some {path : Path} {d t : Nat} {r r' : Ring}
    (h : histputNew path d t r = some r') :
    ∃ ht : t < fnameMax, nextEntry r < maxHistory ∧
      (r.Full → r.conshistp < maxHistory ∧ r.advanced.rmhistp < maxHistory) ∧
      r' = r.opened d ⟨t, ht⟩ path := by
  obtain ⟨r₂, h₂, hrest⟩ := Option.bind_eq_some_iff.mp h
  have hroom : r₂ = r.roomy ∧
      (r.Full → r.conshistp < maxHistory ∧ r.advanced.rmhistp < maxHistory) := by
    by_cases hf : r.Full
    · have hgt : (r.nhist : Int) - (keepFileCount : Int) < r.numhist + 1 := hf
      simp only [forceRoom, gt_iff_lt, if_pos hgt] at h₂
      obtain ⟨hc, hr, rfl⟩ := histremove_iff.mp h₂
      exact ⟨by simp only [Ring.roomy, if_pos hf]; rfl, fun _ => ⟨hc, hr⟩⟩
    · have hle : ¬ (r.nhist : Int) - (keepFileCount : Int) < r.numhist + 1 := hf
      simp only [forceRoom, gt_iff_lt, if_neg hle, Option.some.injEq] at h₂
      subst h₂
      exact ⟨by simp only [Ring.roomy, if_neg hf]; rfl, fun hf' => absurd hf' hf⟩
  obtain ⟨rfl, hin⟩ := hroom
  obtain ⟨r₃, h₃, h₄⟩ := Option.bind_eq_some_iff.mp hrest
  unfold Ring.setDate at h₃
  split at h₃
  · rename_i hn
    cases h₃
    obtain ⟨ht, _, rfl⟩ := setFname_eq_some h₄
    refine ⟨ht, by simpa using hn, hin, ?_⟩
    simp [Ring.opened, Ring.store, Ring.withEntry]
  · cases h₃

/-- Everything a completed `histput` can have done. -/
inductive HistputStep (path : Path) (dt : Int64) (tent : Int) (r r' : Ring) : Prop where
  | refused (ht : tent < 0 ∨ tent > (fnameMax : Int)) (h : r' = r)
  | same (t : Fin fnameMax) (ht : tent = t.val) (hp : r.prodhistp < maxHistory)
      (hd : ull dt = (r.history r.prodhistp).date)
      (h : r' = (r.store r.prodhistp t path).signal)
  | new (t : Fin fnameMax) (ht : tent = t.val) (hp : nextEntry r < maxHistory)
      (hd : (r.history r.prodhistp).date < ull dt)
      (hin : r.Full → r.conshistp < maxHistory ∧ r.advanced.rmhistp < maxHistory)
      (h : r' = (r.opened (ull dt) t path).signal)
  | late (t : Fin fnameMax) (ht : tent = t.val) (i : Nat) (hi : i < maxHistory)
      (hd : ull dt < (r.history r.prodhistp).date) (hdi : ull dt = (r.history i).date)
      (hs : histsearch r (ull dt) (r.nhist - 1) (rewindPointer r.nhist r.prodhistp) = some (some i))
      (h : r' = (r.store i t path).signal)
  | lost (ht : 0 ≤ tent ∧ tent ≤ (fnameMax : Int)) (hd : ull dt < (r.history r.prodhistp).date)
      (hs : histsearch r (ull dt) (r.nhist - 1) (rewindPointer r.nhist r.prodhistp) = some none)
      (h : r' = { r with unlinked := r.unlinked ++ [path] })

theorem histput_cases {path : Path} {dt : Int64} {tent : Int} {r r' : Ring}
    (h : histput path dt tent r = some r') : HistputStep path dt tent r r' := by
  unfold histput at h
  split at h
  · rename_i ht
    exact .refused ht (Option.some.inj h).symm
  rename_i ht
  obtain ⟨cur, hcur, h⟩ := Option.bind_eq_some_iff.mp h
  obtain ⟨hp, rfl⟩ := entry_eq_some hcur
  have htent : tent = (tent.toNat : Int) := by omega
  split at h
  · rename_i hd
    obtain ⟨r₁, h₁, h⟩ := Option.bind_eq_some_iff.mp h
    obtain ⟨ht', _, rfl⟩ := setFname_eq_some h₁
    exact .same ⟨_, ht'⟩ htent hp hd (Option.some.inj h).symm
  rename_i hne
  split at h
  · rename_i hgt
    obtain ⟨r₁, h₁, h⟩ := Option.bind_eq_some_iff.mp h
    obtain ⟨ht', hn, hin, rfl⟩ := histputNew_eq_some h₁
    exact .new ⟨_, ht'⟩ htent hn hgt hin (Option.some.inj h).symm
  rename_i hngt
  have hlt : ull dt < (r.history r.prodhistp).date := by omega
  obtain ⟨found, hs, h⟩ := Option.bind_eq_some_iff.mp h
  cases found with
  | none => exact .lost (by omega) hlt hs (Option.some.inj h).symm
  | some i =>
    obtain ⟨r₁, h₁, h⟩ := Option.bind_eq_some_iff.mp h
    obtain ⟨ht', hi, rfl⟩ := setFname_eq_some h₁
    exact .late ⟨_, ht'⟩ htent i hi hlt (histsearch_found hs).2 hs (Option.some.inj h).symm

end JitDt.Misclib
