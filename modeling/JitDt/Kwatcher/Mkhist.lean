import JitDt.Misclib.History

/-!
# The history of kwatcher

`mkhist` gathers the files of one date in one slot of a small ring and returns the slot
once every synchronised type has arrived. The regular expressions of the configuration
are a parameter. Dates are compared as `unsigned long long`, and file names are relative
to the data directory. `nhist` is at most the size of the array.
-/

namespace JitDt.Kwatcher

set_option autoImplicit false

open Misclib (Path HistData fnameMax ull)

def maxHistory : Nat := 5

/-! ## Names -/

def isspace (b : UInt8) : Bool := b = 32 || (9 ≤ b && b ≤ 13)

def digits (n : Nat) : List UInt8 → Nat
  | [] => n
  | b :: bs => if 48 ≤ b ∧ b ≤ 57 then digits (10 * n + (b.toNat - 48)) bs else n

/-- `atoll` of glibc, which stops at the bounds of `long long`. -/
def atoll (s : CStr) : Int64 :=
  let v : Int := match s.bytes.dropWhile isspace with
    | 45 :: bs => -(digits 0 bs : Int)
    | 43 :: bs => digits 0 bs
    | bs => digits 0 bs
  Int64.ofInt (max (-2 ^ 63) (min v (2 ^ 63 - 1)))

structure Config where
  /-- The date, the type and the new name of a file, if its name is one of ours. -/
  regex_match : Path → Option (CStr × CStr × CStr)
  synctype : List CStr

def Config.sync_nsize (cfg : Config) : Nat := cfg.synctype.length

def Config.sync_entry (cfg : Config) (type : CStr) : Option (Fin cfg.sync_nsize) :=
  cfg.synctype.finIdxOf? type

/-! ## The ring -/

structure History where
  history : Nat → HistData
  nhist : Nat
  curhistp : Nat

/-- The static variables after `main` has set the size. -/
def History.init (nhist : Nat) : History := ⟨fun _ => .zero, nhist, 0⟩

def prev (nhist p : Nat) : Nat := if p = 0 then nhist - 1 else (p - 1) % nhist

def addFile (x : HistData) (entpoint : Fin fnameMax) (cp : Path) : HistData :=
  { x with fname := Function.update x.fname entpoint (some cp) }

def Filled (x : HistData) (entries : Nat) : Prop :=
  ∀ i : Fin fnameMax, i.val < entries → (x.fname i).isSome

instance (x : HistData) (entries : Nat) : Decidable (Filled x entries) :=
  inferInstanceAs (Decidable (∀ _ : Fin fnameMax, _))

/-- The files of a slot that is taken over, which are unlinked. -/
def removed (x : HistData) (entries : Nat) : List Path :=
  if x.date > 0 then
    (List.finRange fnameMax).filterMap fun i => if i.val < entries then x.fname i else none
  else []

/-- The slot after its files were removed; a slot never used has none. -/
def cleared (x : HistData) (entries : Nat) : HistData :=
  if x.date > 0 then { x with fname := fun i => if i.val < entries then none else x.fname i } else x

namespace History

def date (h : History) (p : Nat) : Nat := (h.history p).date

def next (h : History) : Nat := (h.curhistp + 1) % h.nhist

/-- From the label `retry` on: the file goes into the current slot. -/
def fill (h : History) (entries : Nat) (entpoint : Fin fnameMax) (cp : Path) :
    History × Option Nat :=
  let x := h.history h.curhistp
  if (x.fname entpoint).isSome then (h, none)
  else
    let x' := addFile x entpoint cp
    ({ h with history := Function.update h.history h.curhistp x' },
      if Filled x' entries then some h.curhistp else none)

/-- The search for a late file in the `k` slots before `p`. -/
def findLate (h : History) (dt : Nat) : Nat → Nat → Option Nat
  | 0, _ => none
  | k + 1, p =>
    if dt = h.date (prev h.nhist p) then some (prev h.nhist p)
    else findLate h dt k (prev h.nhist p)

def newEntry (h : History) (entries dt : Nat) (entpoint : Fin fnameMax) (cp : Path) : History :=
  let x := cleared (h.history h.curhistp) entries
  let x' := addFile { x with date := dt } entpoint cp
  { h with history := Function.update h.history h.curhistp x' }

/-- `mkhist` from the comparison with the current date on: the ring, the slot returned
and the files unlinked. -/
def enter (h : History) (entries dt : Nat) (entpoint : Fin fnameMax) (cp : Path) :
    History × Option Nat × List Path :=
  if dt = h.date h.curhistp then
    let (h', p) := h.fill entries entpoint cp
    (h', p, [])
  else
    match if dt < h.date h.curhistp then h.findLate dt 2 h.curhistp else none with
    | some q =>
      let (h', p) := { h with curhistp := q }.fill entries entpoint cp
      (h', p, [])
    | none =>
      let h₁ := { h with curhistp := h.next }
      if dt = h₁.date h₁.curhistp then
        let (h', p) := h₁.fill entries entpoint cp
        (h', p, [])
      else
        (h₁.newEntry entries dt entpoint cp, none, removed (h₁.history h₁.curhistp) entries)

end History

inductive FileOp where
  | rename (old new : Path)
  | unlink (name : Path)
deriving DecidableEq

structure Result where
  hist : History
  /-- The slot whose address is returned. -/
  entry : Option Nat
  ops : List FileOp

/-- `none` is the exit for a configuration with more types than `fname` has places. -/
def mkhist (cfg : Config) (h : History) (path : Path) (renamed : Bool) : Option Result :=
  match cfg.regex_match path with
  | none => some ⟨h, none, []⟩
  | some (date, type, fnam) =>
    match cfg.sync_entry type with
    | none => some ⟨h, none, [.unlink path]⟩
    | some entpoint =>
      if renamed then
        if hn : cfg.sync_nsize ≤ fnameMax then
          let (h', p, names) :=
            h.enter cfg.sync_nsize (ull (atoll date)) (Fin.castLE hn entpoint) fnam
          some ⟨h', p, .rename path fnam :: names.map .unlink⟩
        else none
      else some ⟨h, none, [.rename path fnam]⟩

/-! ## Where a file goes -/

/-- `mkhist` finds the slot of date `dt`: it is the current one, one of the two before it
if the current one is newer, or the next one. -/
def Found (h : History) (dt : Nat) : Prop :=
  dt = h.date h.curhistp ∨
    (dt < h.date h.curhistp ∧ (dt = h.date (prev h.nhist h.curhistp) ∨
      dt = h.date (prev h.nhist (prev h.nhist h.curhistp)))) ∨
    dt = h.date h.next

instance (h : History) (dt : Nat) : Decidable (Found h dt) := inferInstanceAs (Decidable (_ ∨ _))

/-- What a file does to the ring, and the slot that is returned. -/
inductive EnterEffect (h : History) (entries dt : Nat) (entpoint : Fin fnameMax) (cp : Path) :
    (Nat → HistData) → Option Nat → Prop where
  | multiple (q : Nat) (hq : h.date q = dt) (hm : (h.history q).fname entpoint ≠ none) :
      EnterEffect h entries dt entpoint cp h.history none
  | filled (q : Nat) (hfound : Found h dt) (hq : h.date q = dt)
      (hfree : (h.history q).fname entpoint = none) :
      EnterEffect h entries dt entpoint cp
        (Function.update h.history q (addFile (h.history q) entpoint cp))
        (if Filled (addFile (h.history q) entpoint cp) entries then some q else none)
  | opened (hnot : ¬ Found h dt) :
      EnterEffect h entries dt entpoint cp
        (Function.update h.history h.next
          (addFile { cleared (h.history h.next) entries with date := dt } entpoint cp)) none

variable {h : History} {entries dt q : Nat} {entpoint : Fin fnameMax} {cp : Path}

theorem findLate_some (hq : h.findLate dt 2 h.curhistp = some q) :
    dt = h.date q ∧ (q = prev h.nhist h.curhistp ∨ q = prev h.nhist (prev h.nhist h.curhistp)) := by
  unfold History.findLate at hq
  split at hq
  · rename_i hdt
    obtain rfl := Option.some.inj hq
    exact ⟨hdt, Or.inl rfl⟩
  · unfold History.findLate at hq
    split at hq
    · rename_i hdt
      obtain rfl := Option.some.inj hq
      exact ⟨hdt, Or.inr rfl⟩
    · cases hq

theorem findLate_none (hq : h.findLate dt 2 h.curhistp = none) :
    ¬ (dt = h.date (prev h.nhist h.curhistp) ∨
      dt = h.date (prev h.nhist (prev h.nhist h.curhistp))) := by
  unfold History.findLate at hq
  split at hq
  · cases hq
  · rename_i h₁
    unfold History.findLate at hq
    split at hq
    · cases hq
    · rename_i h₂
      exact fun hor => hor.elim h₁ h₂

theorem enter_of_found (hf : Found h dt) : ∃ q, h.date q = dt ∧
    (q = h.curhistp ∨ q = prev h.nhist h.curhistp ∨ q = prev h.nhist (prev h.nhist h.curhistp) ∨
      q = h.next) ∧
    h.enter entries dt entpoint cp =
      (({ h with curhistp := q }.fill entries entpoint cp).1,
        ({ h with curhistp := q }.fill entries entpoint cp).2, []) := by
  unfold History.enter
  by_cases hcur : dt = h.date h.curhistp
  · exact ⟨h.curhistp, hcur.symm, Or.inl rfl, by rw [if_pos hcur]⟩
  rw [if_neg hcur]
  cases hq : if dt < h.date h.curhistp then h.findLate dt 2 h.curhistp else none with
  | some q =>
    split at hq
    · obtain ⟨hdt, hprev | hprev⟩ := findLate_some hq
      · exact ⟨q, hdt.symm, Or.inr (Or.inl hprev), rfl⟩
      · exact ⟨q, hdt.symm, Or.inr (Or.inr (Or.inl hprev)), rfl⟩
    · cases hq
  | none =>
    rcases hf with hc | ⟨hlt, hl⟩ | hn
    · exact absurd hc hcur
    · rw [if_pos hlt] at hq
      exact absurd hl (findLate_none hq)
    · have hn' : dt = { h with curhistp := h.next }.date h.next := hn
      exact ⟨h.next, hn.symm, Or.inr (Or.inr (Or.inr rfl)), if_pos hn'⟩

theorem enter_of_not_found (hnot : ¬ Found h dt) : h.enter entries dt entpoint cp =
    ({ h with curhistp := h.next }.newEntry entries dt entpoint cp, none,
      removed (h.history h.next) entries) := by
  have hcur : dt ≠ h.date h.curhistp := fun hc => hnot (Or.inl hc)
  have hnext : dt ≠ { h with curhistp := h.next }.date h.next :=
    fun hn => hnot (Or.inr (Or.inr hn))
  have hlate : (if dt < h.date h.curhistp then h.findLate dt 2 h.curhistp else none) = none := by
    split
    · rename_i hlt
      cases hq : h.findLate dt 2 h.curhistp with
      | none => rfl
      | some q =>
        obtain ⟨hdt, rfl | rfl⟩ := findLate_some hq
        · exact absurd (Or.inr (Or.inl ⟨hlt, Or.inl hdt⟩)) hnot
        · exact absurd (Or.inr (Or.inl ⟨hlt, Or.inr hdt⟩)) hnot
    · rfl
  unfold History.enter
  rw [if_neg hcur, hlate]
  exact if_neg hnext

theorem fill_effect (hfound : Found h dt) (hq : h.date q = dt) :
    EnterEffect h entries dt entpoint cp ({ h with curhistp := q }.fill entries entpoint cp).1.history
      ({ h with curhistp := q }.fill entries entpoint cp).2 := by
  unfold History.fill
  simp only
  split
  · rename_i hsome
    exact .multiple q hq (Option.isSome_iff_ne_none.mp hsome)
  · rename_i hnone
    have hfree : (h.history q).fname entpoint = none := by simpa using hnone
    exact .filled q hfound hq hfree

theorem enter_effect : EnterEffect h entries dt entpoint cp
    (h.enter entries dt entpoint cp).1.history (h.enter entries dt entpoint cp).2.1 := by
  by_cases hf : Found h dt
  · obtain ⟨q, hq, _, henter⟩ := @enter_of_found _ entries _ entpoint cp hf
    rw [henter]
    exact fill_effect hf hq
  · rw [enter_of_not_found hf]
    exact .opened hf

end JitDt.Kwatcher
