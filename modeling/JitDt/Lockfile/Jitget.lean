import JitDt.Lockfile.Delivery
import JitDt.Lwatcher.Get

/-!
# What `_jitget` of jitkclient.c returns

`_jitget` decides by the first byte of `fpath` whether the lock file held a list, and
`fpath` is static. A read that brings nothing, of a file that was just created or that
cannot be read, leaves there what the last call left: the first name of its list. The
call then returns 0 and has delivered nothing.
-/

namespace JitDt.Lockfile

set_option autoImplicit false

open Machine Lwatcher

/-! ## The loop over the files -/

/-- What the caller passes by reference. -/
structure Caller where
  fname : Memory
  data : Memory
  bsize : Nat → Int32

/-- One call: the number of entries, and what `open` and `read` do with the files. -/
structure Call where
  ent : Nat
  disk : Nat → FileRead
  caller : Caller

/-- The loop variables: `len` is `strlen(fname)`. -/
structure Filling where
  caller : Caller
  len : Nat
  ptr : Int

def Filling.start (c : Caller) : Filling where
  caller := { c with fname := c.fname.write 0 [0] }
  len := 0
  ptr := 0

/-- The size stored in `bsize[i]`: what `read` returned, or 0 if `open` failed. -/
def readSize (file : FileRead) (size : Int32) : Int32 :=
  match file with
  | .noOpen => 0
  | _ =>
    match file.read size with
    | some bytes => Int32.ofNat bytes.length
    | none => -1

/-- The body of the loop; `none` is an overflow of `ptr`. -/
def getFile (name : List UInt8) (file : FileRead) (i : Nat) (g : Filling) : Option Filling :=
  let size := g.caller.bsize i
  if g.ptr + size.toInt < 2 ^ 31 ∧ -2 ^ 31 ≤ g.ptr + size.toInt then
    some
      { caller :=
          { fname := g.caller.fname.write g.len (name ++ [ftchrSeparator, 0])
            data := g.caller.data.write g.ptr ((file.read size).getD [])
            bsize := Function.update g.caller.bsize i (readSize file size) }
        len := g.len + name.length + 1
        ptr := g.ptr + size.toInt }
  else none

/-- The loop from entry `i` on, `k` entries left. `septype` ends `files` with a null
pointer unless it found `FTYPE_NUM` names; the place behind those is never assigned. -/
def getFrom (names : List (List UInt8)) (disk : Nat → FileRead) :
    Nat → Nat → Filling → Option Filling
  | 0, _, g => some g
  | k + 1, i, g =>
    match names[i]? with
    | some name => do
      let g' ← getFile name (disk i) i g
      getFrom names disk k (i + 1) g'
    | none => if i < ftypeNum then some g else none

/-- The last separator is overwritten, or the byte in front of `fname`. -/
def Filling.finish (g : Filling) : Caller :=
  { g.caller with fname := g.caller.fname.write ((g.len : Int) - 1) [0] }

/-- The result of `_jitget` when its read of the lock file gives `content` or fails. -/
def _jitget (content : List UInt8) (ok : Bool) (fpath : List UInt8) (c : Call) :
    Option (Int × Caller) :=
  match (readNames content ok fpath).2 with
  | none => some (-1, c.caller)
  | some files => do
    let g ← getFrom files c.disk c.ent 0 (.start c.caller)
    some (0, g.finish)

/-! ## The property -/

/-- The lock file held a publication that nobody took, and the read gave its names. -/
def Delivers (s : State) (i : Nat) (f ok : Bool) : Prop :=
  ok = true ∧ (∃ m, Refines s m) ∧ ∀ m, Refines s m → ∃ k, m.cell f = some k ∧
    (readNames (s.file f).content ok (s.client i).fpath).2 = some (namesOf s.published k)

/-- Every call returns a negative value, leaves its caller's variables alone, and gives
the lock back. -/
def Refuses (s : State) (i : Nat) (f ok : Bool) : Prop :=
  (∀ c : Call, ∃ r, _jitget (s.file f).content ok (s.client i).fpath c = some (r, c.caller) ∧ r < 0) ∧
    ∃ s' s'', step s (.clientRead i ok) = some s' ∧ step s' (.clientClose i) = some s'' ∧
      (s''.file f).owner = none ∧ (s''.client i).pc = .idle

/-- A call that returns 0 has delivered a publication, and every other one refuses. -/
def Sound (s : State) : Label → Prop
  | .clientRead i ok => ∀ f, (s.client i).pc = .locked f → Delivers s i f ok ∨ Refuses s i f ok
  | _ => True

/-- The read brings nothing, and `fpath` still holds the text of an earlier call. -/
def Stale (s : State) : Label → Prop
  | .clientRead i ok => ∃ f, (s.client i).pc = .locked f ∧
      (ok = false ∨ (s.file f).content = []) ∧ (s.client i).fpath.headD 0 ≠ 0
  | _ => False

instance (s : State) : ∀ l, Decidable (Stale s l)
  | .clientRead _ _ => inferInstanceAs (Decidable (∃ _, _))
  | .lock | .write _ | .unlock | .clientLock _ | .clientClose _ | .clientNullify _
  | .clientUnlock _ => isFalse id

theorem jitget_of_names {content fpath : List UInt8} {ok : Bool} {c : Call}
    (h : (readNames content ok fpath).2 = some []) :
    _jitget content ok fpath c = some (0, (Filling.start c.caller).finish) := by
  have hloop : getFrom [] c.disk c.ent 0 (.start c.caller) = some (.start c.caller) := by
    cases c.ent <;> rfl
  unfold _jitget
  rw [h]
  simp [hloop]

/-- Nothing was read: the buffer decides, as the last call left it. -/
theorem readNames_nothing {content b : List UInt8} {ok : Bool} (h : ok = false ∨ content = [])
    (hsep : NoSeparator b) (hline : newline ∉ cstrOf b) :
    (readNames content ok b).2 = if b.headD 0 = 0 then none else some [] := by
  have hrec : received content ok b = b := by
    unfold received
    rcases h with rfl | rfl
    · rfl
    · simp
  have hfirst : firstLine (cstrOf b) = cstrOf b := by
    unfold firstLine
    rw [List.idxOf_eq_length hline, List.take_length]
  rw [readNames_names, hrec, hfirst]
  simp only [cstrOf_eq_nil_iff]
  split
  · rfl
  · rw [splitNames_eq_nil]
    split
    · exact fun hmem => hsep (List.mem_of_mem_take hmem)
    · exact hsep

/-- Something was read: a blank file is refused, a list is delivered. -/
theorem readNames_something {content b : List UInt8} (hne : content ≠ []) (hblank : Blank content) :
    (readNames content true b).2 = none := by
  obtain ⟨c, content, rfl⟩ := List.exists_cons_of_ne_nil hne
  obtain rfl : c = 0 := hblank
  rw [readNames_names]
  simp [received, cstrOf, pathMax, firstLine]

theorem refuses_of_none {s : State} {i : Nat} {f ok : Bool} (hpc : (s.client i).pc = .locked f)
    (h : (readNames (s.file f).content ok (s.client i).fpath).2 = none) : Refuses s i f ok := by
  constructor
  · intro c
    refine ⟨-1, ?_, by decide⟩
    unfold _jitget
    rw [h]
  · rcases hread : readNames (s.file f).content ok (s.client i).fpath with ⟨b, o⟩
    rw [hread] at h
    obtain rfl : o = none := h
    have hstep : step s (.clientRead i ok) =
        some (s.setClient i { s.client i with fpath := b, pc := .failed f }) := by
      simp [step, hpc, State.clientRead, hread]
    refine ⟨_, ((s.setClient i { s.client i with fpath := b, pc := .failed f }).setOwner f
      none).setPc i .idle, hstep, ?_, ?_, ?_⟩
    · simp [step, State.setClient]
    · simp [State.setPc, State.setClient, State.setOwner]
    · simp [State.setPc, State.setClient]

/-- A read of a file that is not empty delivers what the file holds, or refuses. -/
theorem sound_of_read {s : State} {m : Mailboxes Bool} (h : Refines s m) {i : Nat} {f : Bool}
    (hpc : (s.client i).pc = .locked f) (hne : (s.file f).content ≠ []) :
    Delivers s i f true ∨ Refuses s i f true := by
  by_cases hblank : Blank (s.file f).content
  · exact Or.inr (refuses_of_none hpc (readNames_something hne hblank))
  cases hread : (readNames (s.file f).content true (s.client i).fpath).2 with
  | none => exact Or.inr (refuses_of_none hpc hread)
  | some files =>
    refine Or.inl ⟨rfl, ⟨m, h⟩, ?_⟩
    intro m' h'
    have hcontent := h'.content_of_locked hpc
    cases hk : m'.cell f with
    | none =>
      rw [hk] at hcontent
      exact absurd hcontent hblank
    | some k =>
      rw [hk] at hcontent
      obtain ⟨names, hnames, hholds⟩ := hcontent
      refine ⟨k, rfl, ?_⟩
      have hfit := h'.fits names (List.mem_of_getElem? hnames)
      rw [readNames_holds hfit hholds] at hread ⊢
      split at hread
      · cases hread
      · rename_i hline
        rw [if_neg hline]
        simp [namesOf, hnames]

/-- A read that brings nothing is refused, unless the buffer holds an old text. -/
theorem not_sound_of_stale {s : State} {i : Nat} {f ok : Bool} (hpc : (s.client i).pc = .locked f)
    (hsep : NoSeparator (s.client i).fpath) (hline : newline ∉ cstrOf (s.client i).fpath)
    (hnothing : ok = false ∨ (s.file f).content = []) (hold : (s.client i).fpath.headD 0 ≠ 0) :
    ¬ (Delivers s i f ok ∨ Refuses s i f ok) := by
  have hread := readNames_nothing hnothing hsep hline
  rw [if_neg hold] at hread
  rintro (⟨rfl, ⟨m, h⟩, hall⟩ | ⟨hrefuse, _⟩)
  · have hempty : (s.file f).content = [] := by
      rcases hnothing with hfalse | hempty
      · cases hfalse
      · exact hempty
    obtain ⟨k, hk, _⟩ := hall m h
    have hcontent := h.content_of_locked hpc
    rw [hk, hempty] at hcontent
    obtain ⟨names, _, tail, htail⟩ := hcontent
    simp at htail
  · obtain ⟨r, hr, hneg⟩ := hrefuse ⟨0, fun _ => .noOpen, ⟨fun _ => 0, fun _ => 0, fun _ => 0⟩⟩
    rw [jitget_of_names hread] at hr
    obtain rfl : 0 = r := (Prod.mk.inj (Option.some.inj hr)).1
    omega

theorem sound_iff {s : State} {m : Mailboxes Bool} (h : Refines s m)
    (hline : ∀ i, newline ∉ cstrOf (s.client i).fpath) (l : Label) : Sound s l ↔ ¬ Stale s l := by
  cases l with
  | clientRead i ok =>
    constructor
    · rintro hsound ⟨f, hpc, hnothing, hold⟩
      exact not_sound_of_stale hpc (h.fpath i) (hline i) hnothing hold (hsound f hpc)
    · intro hstale f hpc
      by_cases hnothing : ok = false ∨ (s.file f).content = []
      · have hclear : (s.client i).fpath.headD 0 = 0 := by
          by_contra hold
          exact hstale ⟨f, hpc, hnothing, hold⟩
        have hread := readNames_nothing hnothing (h.fpath i) (hline i)
        rw [if_pos hclear] at hread
        exact Or.inr (refuses_of_none hpc hread)
      · rw [not_or, Bool.not_eq_false] at hnothing
        obtain ⟨rfl, hne⟩ := hnothing
        exact sound_of_read h hpc hne
  | _ => exact iff_of_true trivial id

/-! ## Runs -/

/-- A step changes the buffer of a client only by reading names into it. -/
theorem step_fpath {s t : State} {l : Label} (h : step s l = some t) (j : Nat) :
    (t.client j).fpath = (s.client j).fpath ∨
      ∃ content ok b, (t.client j).fpath = (readNames content ok b).1 := by
  have hset : ∀ (i : Nat) (c : Client), (∃ content ok b, c.fpath = (readNames content ok b).1) ∨
      c.fpath = (s.client i).fpath → ((Function.update s.client i c) j).fpath = (s.client j).fpath ∨
        ∃ content ok b, ((Function.update s.client i c) j).fpath = (readNames content ok b).1 := by
    intro i c hc
    by_cases hj : j = i
    · subst hj
      rw [Function.update_self]
      exact hc.symm
    · rw [Function.update_of_ne hj]
      exact Or.inl rfl
  cases step_cases h with
  | clientRead i ok f _ =>
    unfold State.clientRead
    rcases hread : readNames (s.file f).content ok (s.client i).fpath with ⟨b, _ | files⟩
    · exact hset i _ (Or.inl ⟨_, _, _, (congrArg Prod.fst hread).symm⟩)
    · exact hset i _ (Or.inl ⟨_, _, _, (congrArg Prod.fst hread).symm⟩)
  | clientLock | clientClose | clientNullify | clientUnlock => exact hset _ _ (Or.inr rfl)
  | lock | write | unlock => exact Or.inl rfl

/-- What earlier processes left in the lock files: no list, or one nobody took. -/
def LeftBehind (left : Bool → Option (List CStr)) (content : Bool → List UInt8) : Prop :=
  ∀ f, match left f with
    | none => Blank (content f)
    | some names => FitsTables names ∧ Holds names (content f)

def leftLists (left : Bool → Option (List CStr)) : List (List CStr) :=
  (left false).toList ++ (left true).toList

/-- All processes start on lock files that may hold lists published before. -/
def restart (left : Bool → Option (List CStr)) (content : Bool → List UInt8) : State :=
  { init content with published := leftLists left }

def leftCell (left : Bool → Option (List CStr)) (f : Bool) : Option Nat :=
  (left f).map fun _ => if f then (left false).toList.length else 0

theorem leftCell_getElem {left : Bool → Option (List CStr)} {f : Bool} {k : Nat}
    (h : leftCell left f = some k) : (leftLists left)[k]? = left f := by
  unfold leftCell at h
  unfold leftLists
  cases f with
  | false =>
    cases hf : left false with
    | none => simp [hf] at h
    | some names =>
      obtain rfl : 0 = k := by simpa [hf] using h
      simp
  | true =>
    cases ht : left true with
    | none => simp [ht] at h
    | some names =>
      obtain rfl : (left false).toList.length = k := by simpa [ht] using h
      simp

theorem leftCell_ne {left : Bool → Option (List CStr)} {k : Nat} (hf : leftCell left false = some k)
    (ht : leftCell left true = some k) : False := by
  unfold leftCell at hf ht
  cases hl : left false with
  | none => simp [hl] at hf
  | some names =>
    cases hr : left true with
    | none => simp [hr] at ht
    | some names' =>
      simp [hl] at hf
      simp [hl, hr] at ht
      omega

def leftMail (left : Bool → Option (List CStr)) : Mailboxes Bool where
  cell := leftCell left
  sent := (leftLists left).length
  taken := []
  cell_lt := by
    intro f k hk
    have hget := leftCell_getElem hk
    unfold leftCell at hk
    cases hl : left f with
    | none => simp [hl] at hk
    | some names =>
      rw [hl] at hget
      exact (List.getElem?_eq_some_iff.mp hget).1
  cell_fresh := by simp
  cell_inj := by
    intro f g k hf hg
    cases f with
    | false =>
      cases g with
      | false => rfl
      | true => exact (leftCell_ne hf hg).elim
    | true =>
      cases g with
      | false => exact (leftCell_ne hg hf).elim
      | true => rfl
  taken_lt := by simp
  nodup := List.nodup_nil

theorem refines_restart {left : Bool → Option (List CStr)} {content : Bool → List UInt8}
    (h : LeftBehind left content) : Refines (restart left content) (leftMail left) where
  sent := rfl
  fits := by
    intro names hmem
    rcases List.mem_append.mp hmem with hmem | hmem
    · have hf := h false
      rw [Option.mem_toList.mp hmem] at hf
      exact hf.1
    · have ht := h true
      rw [Option.mem_toList.mp hmem] at ht
      exact ht.1
  kwatcher := by simp [restart, init, KPc.holds]
  client := by simp [restart, init, CPc.holds]
  got := by simp [restart, init]
  content := by
    intro f _
    show CellHolds (leftLists left) (content f) (leftCell left f)
    have hf := h f
    cases hl : left f with
    | none =>
      rw [hl] at hf
      have hcell : leftCell left f = none := by simp [leftCell, hl]
      rw [hcell]
      exact hf
    | some names =>
      rw [hl] at hf
      have hcell : leftCell left f = some (if f then (left false).toList.length else 0) := by
        simp [leftCell, hl]
      rw [hcell]
      exact ⟨names, (leftCell_getElem hcell).trans hl, hf.2⟩
  fpath := fun _ => noSeparator_replicate pathMax
  obtained := rfl

end JitDt.Lockfile
