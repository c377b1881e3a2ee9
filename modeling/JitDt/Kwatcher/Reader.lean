import JitDt.Kwatcher.Recycle
import JitDt.Lockfile.Delivery

/-!
# A client that reads a set while kwatcher goes on

kwatcher runs `mkhist` while it holds one lock file; the other one may be locked by a
client that reads the set published in it. A step of the system is a call of `mkhist`, the
publication of the set it has returned, or a step of the processes on the lock files.
-/

namespace JitDt.Kwatcher

set_option autoImplicit false

open Machine
open Misclib (Path HistData fnameMax)

/-- kwatcher and its clients. -/
structure System where
  kw : State
  lock : Lockfile.State
  /-- The entry `mkhist` has returned, until it is written. -/
  pending : Option HistData
  /-- The entry that was last written into each lock file. -/
  sent : Bool → Option HistData

inductive Event where
  | arrive (l : Label)
  | publish
  | lockStep (l : Lockfile.Label)

/-- The names `transfer` writes into the lock file. -/
def setNames (entries : Nat) (x : HistData) : List Path :=
  (List.finRange fnameMax).filterMap fun i => if i.val < entries then x.fname i else none

def System.init (content : Bool → List UInt8) : System where
  kw := Kwatcher.init
  lock := Lockfile.init content
  pending := none
  sent := fun _ => none

section Definitions
variable (cfg : Config)

/-- `transfer` runs `mkhist` with a lock file in hand, and publishes what it returns before
the next file. -/
def System.step (s : System) : Event → Option System
  | .arrive l =>
    match s.lock.kpc, s.pending with
    | .held _, none => (Kwatcher.step cfg s.kw l).map fun kw =>
        { s with kw := kw, pending := returned cfg s.kw l }
    | _, _ => none
  | .publish =>
    match s.lock.kpc, s.pending with
    | .held f, some x => (Lockfile.step s.lock (.write (setNames cfg.sync_nsize x))).map fun lock =>
        { s with lock := lock, pending := none, sent := Function.update s.sent f (some x) }
    | _, _ => none
  | .lockStep (.write _) => none
  | .lockStep l => (Lockfile.step s.lock l).map fun lock => { s with lock := lock }

end Definitions

/-- Client `i` holds lock file `f` with the set `x`, which it has not yet nullified. -/
def System.Reads (s : System) (i : Nat) (f : Bool) (x : HistData) : Prop :=
  ((s.lock.client i).pc = .locked f ∨ (s.lock.client i).pc = .failed f ∨
    (s.lock.client i).pc = .got f) ∧ ¬ Lockfile.Blank (s.lock.file f).content ∧ s.sent f = some x

/-! ## Runs -/

section Runs
variable {cfg : Config} {s t : System} {e : Event} {es : List Event}

theorem step_lockStep {l : Lockfile.Label} (h : s.step cfg (.lockStep l) = some t) :
    ∃ lock, Lockfile.step s.lock l = some lock ∧ (∀ names, l ≠ .write names) ∧
      t = { s with lock := lock } := by
  cases l with
  | write names => cases h
  | _ =>
    obtain ⟨lock, hlock, rfl⟩ := Option.map_eq_some_iff.mp h
    exact ⟨lock, hlock, by simp, rfl⟩

theorem step_publish (h : s.step cfg .publish = some t) : ∃ f x, s.lock.kpc = .held f ∧
    s.pending = some x ∧ ∃ lock,
      Lockfile.step s.lock (.write (setNames cfg.sync_nsize x)) = some lock ∧
        t = { s with lock := lock, pending := none, sent := Function.update s.sent f (some x) } := by
  unfold System.step at h
  simp only at h
  split at h
  · rename_i f x hkpc hx
    obtain ⟨lock, hlock, rfl⟩ := Option.map_eq_some_iff.mp h
    exact ⟨f, x, hkpc, hx, lock, hlock, rfl⟩
  · cases h

theorem step_arrive {l : Label} (h : s.step cfg (.arrive l) = some t) :
    ∃ kw, step cfg s.kw l = some kw ∧ t = { s with kw := kw, pending := returned cfg s.kw l } := by
  unfold System.step at h
  simp only at h
  split at h
  · obtain ⟨kw, hkw, rfl⟩ := Option.map_eq_some_iff.mp h
    exact ⟨kw, hkw, rfl⟩
  · cases h

/-- A lock file still holds the set that was last written into it, or no names. -/
def Written (cfg : Config) (s : System) : Prop :=
  ∀ f x, s.sent f = some x → Lockfile.Blank (s.lock.file f).content ∨
    Lockfile.Holds (setNames cfg.sync_nsize x) (s.lock.file f).content

theorem written_step (hw : Written cfg s) (h : s.step cfg e = some t) : Written cfg t := by
  cases e with
  | arrive l =>
    obtain ⟨kw, _, rfl⟩ := step_arrive h
    exact hw
  | publish =>
    obtain ⟨f, x, hkpc, _, lock, hlock, rfl⟩ := step_publish h
    cases Lockfile.step_cases hlock with
    | write _ f' hk _ =>
      obtain rfl : f = f' := by simpa using hkpc.symm.trans hk
      intro g y hy
      simp only [Lockfile.setContent_content]
      by_cases hg : g = f
      · subst hg
        simp only [Function.update_self] at hy
        obtain rfl := Option.some.inj hy
        right
        rw [if_pos rfl]
        exact Lockfile.holds_locked_write _ _
      · simp only [Function.update_of_ne hg] at hy
        rw [if_neg hg]
        exact hw g y hy
  | lockStep l =>
    obtain ⟨lock, hlock, hl, rfl⟩ := step_lockStep h
    intro f x hx
    rcases Lockfile.step_content hlock hl f with hsame | hblank
    · simp only [hsame]
      exact hw f x hx
    · exact Or.inl hblank

/-- The file of a client that reads a set holds the names of that set. -/
theorem reads_holds (content : Bool → List UInt8)
    (h : exec (System.step cfg) (System.init content) es = some s) {i : Nat} {f : Bool}
    {x : HistData} (hr : s.Reads i f x) :
    Lockfile.Holds (setNames cfg.sync_nsize x) (s.lock.file f).content := by
  have hw : Written cfg s := by
    refine exec_invariant written_step ?_ h
    intro f x hx
    cases hx
  obtain ⟨_, hblank, hsent⟩ := hr
  rcases hw f x hsent with hb | hholds
  · exact absurd hb hblank
  · exact hholds

end Runs

end JitDt.Kwatcher
