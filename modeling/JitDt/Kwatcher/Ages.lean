import JitDt.Kwatcher.Account
import JitDt.Kwatcher.Reader

/-!
# When `mkhist` unlinks a file of a set that is read

`mkhist` does not look at the locks. A slot is taken over when `nhist` slots have been opened
after it, and until then the files of its set stay, as long as every slot is opened behind the
one opened before it and no name stands in two slots. `Aged` counts the slots beside the run;
the code does not.
-/

namespace JitDt.Kwatcher

set_option autoImplicit false

open Machine
open Misclib (Path HistData fnameMax)

section Definitions
variable (cfg : Config)

def FileOp.unlinked : FileOp → Option Path
  | .unlink name => some name
  | .rename _ _ => none

/-- The files that an event unlinks. -/
def System.unlinks (s : System) : Event → List Path
  | .arrive l =>
    match mkhist cfg s.kw.hist l.path l.renamed with
    | some r => r.ops.filterMap FileOp.unlinked
    | none => []
  | _ => []

/-- The file is removed at once, since its type is not synchronised. -/
def Unexpected (path : Path) : Prop :=
  ∃ m ∈ cfg.regex_match path, cfg.sync_entry m.2.1 = none

instance (path : Path) : Decidable (Unexpected cfg path) :=
  inferInstanceAs (Decidable (∃ _ ∈ cfg.regex_match path, _))

/-- The slot in which a file is stored; a file whose place is taken is stored nowhere. -/
def History.storedIn (h : History) (dt : Nat) (e : Fin fnameMax) : Option Nat :=
  match h.slotFor dt with
  | some q => if ((h.history q).fname e).isSome then none else some q
  | none => some h.next

/-- Slot `q` has a file of that name. -/
def History.Names (h : History) (q : Nat) (n : Path) : Prop :=
  ∃ i : Fin fnameMax, (h.history q).fname i = some n

instance (h : History) (q : Nat) (n : Path) : Decidable (h.Names q n) :=
  inferInstanceAs (Decidable (∃ _ : Fin fnameMax, _))

/-- No file is stored under a name that stands in another slot, and no file of an unexpected type
has the new name of an earlier file. -/
def NamesApart (s : State) (l : Label) : Prop :=
  (∀ a ∈ cfg.arrival l, ∀ q ∈ s.hist.storedIn a.date a.entpoint,
    ∀ p < maxHistory, p ≠ q → ¬ s.hist.Names p a.fnam) ∧
    (Unexpected cfg l.path → ∀ b ∈ s.arrived, b.fnam ≠ l.path)

instance (s : State) (l : Label) : Decidable (NamesApart cfg s l) :=
  inferInstanceAs (Decidable (_ ∧ _))

/-- The file gets a slot of its own. -/
def Opens (h : History) (l : Label) : Prop := ∃ a ∈ cfg.arrival l, h.slotFor a.date = none

instance (h : History) (l : Label) : Decidable (Opens cfg h l) :=
  inferInstanceAs (Decidable (∃ _ ∈ cfg.arrival l, _))

end Definitions

/-- A run with the slots counted as they are opened. -/
structure Aged where
  sys : System
  opened : Nat
  /-- The slot opened last. -/
  last : Nat
  /-- The number under which a slot was opened last, or 0. -/
  born : Nat → Nat
  /-- The number of the slot that `mkhist` has returned. -/
  pending : Nat
  /-- The numbers of the slots whose entries were last written into the lock files. -/
  sent : Bool → Nat

def Aged.init (content : Bool → List UInt8) : Aged where
  sys := .init content
  opened := 0
  last := 0
  born := fun _ => 0
  pending := 0
  sent := fun _ => 0

namespace Aged
variable (cfg : Config) (g : Aged)

/-- The number of slots opened, that of the event included. -/
def openedBy : Event → Nat
  | .arrive l => if Opens cfg g.sys.kw.hist l then g.opened + 1 else g.opened
  | _ => g.opened

/-- The counters after an event that leads to `t`: a new slot is the current one afterwards, and so
is a slot that is returned. -/
def count (t : System) : Event → Aged
  | .arrive l =>
    if Opens cfg g.sys.kw.hist l then
      { g with
        sys := t
        opened := g.opened + 1
        last := t.kw.hist.curhistp
        born := Function.update g.born t.kw.hist.curhistp (g.opened + 1) }
    else { g with sys := t, pending := g.born t.kw.hist.curhistp }
  | .publish =>
    match g.sys.lock.kpc with
    | .held f => { g with sys := t, sent := Function.update g.sent f g.pending }
    | _ => { g with sys := t }
  | .lockStep _ => { g with sys := t }

def step (e : Event) : Option Aged := (g.sys.step cfg e).map fun t => g.count cfg t e

/-- A file gets a slot of its own only while the current slot is the one opened last, and names are
kept apart. -/
def Orderly : Event → Prop
  | .arrive l => (Opens cfg g.sys.kw.hist l → g.sys.kw.hist.curhistp = g.last) ∧
    NamesApart cfg g.sys.kw l
  | _ => True

instance : (e : Event) → Decidable (g.Orderly cfg e)
  | .arrive l => inferInstanceAs (Decidable ((Opens cfg _ l → _) ∧ _))
  | .publish => inferInstanceAs (Decidable True)
  | .lockStep _ => inferInstanceAs (Decidable True)

end Aged

/-! ## What is unlinked -/

section Unlinked
variable {cfg : Config} {s : System} {l : Label}

theorem filterMap_unlinked (names : List Path) :
    (names.map FileOp.unlink).filterMap FileOp.unlinked = names := by
  induction names with
  | nil => rfl
  | cons n names ih => simp [FileOp.unlinked, ih]

/-- A file that is unlinked was of an unexpected type, or in the slot taken over. -/
theorem mem_unlinks {n : Path} (h : n ∈ s.unlinks cfg (.arrive l)) :
    (n = l.path ∧ Unexpected cfg l.path) ∨
      ∃ a, cfg.arrival l = some a ∧ s.kw.hist.slotFor a.date = none ∧
        n ∈ removed (s.kw.hist.history s.kw.hist.next) cfg.sync_nsize := by
  unfold System.unlinks mkhist at h
  simp only at h
  cases hm : cfg.regex_match l.path with
  | none =>
    rw [hm] at h
    simp at h
  | some m =>
    obtain ⟨date, type, fnam⟩ := m
    simp only [hm] at h
    cases he : cfg.sync_entry type with
    | none =>
      simp only [he] at h
      have hn : n = l.path := by simpa [FileOp.unlinked] using h
      exact Or.inl ⟨hn, (date, type, fnam), hm, he⟩
    | some e =>
      simp only [he] at h
      by_cases hren : l.renamed
      · by_cases hn : cfg.sync_nsize ≤ fnameMax
        · have ha : cfg.arrival l = some ⟨Misclib.ull (atoll date), Fin.castLE hn e, fnam⟩ := by
            simp [Config.arrival, hm, he, hren, hn]
          rw [if_pos hren, dif_pos hn] at h
          simp only [List.filterMap_cons, FileOp.unlinked, filterMap_unlinked] at h
          rw [enter_eq] at h
          cases hslot : s.kw.hist.slotFor (Misclib.ull (atoll date)) with
          | some q =>
            rw [hslot] at h
            cases h
          | none =>
            rw [hslot] at h
            exact Or.inr ⟨_, ha, hslot, h⟩
        · rw [if_pos hren, dif_neg hn] at h
          cases h
      · rw [if_neg hren] at h
        simp [FileOp.unlinked] at h

theorem mem_removed {x : HistData} {entries : Nat} {n : Path} (h : n ∈ removed x entries) :
    0 < x.date ∧ ∃ i : Fin fnameMax, x.fname i = some n := by
  unfold removed at h
  split at h
  · rename_i hpos
    obtain ⟨i, _, hi⟩ := List.mem_filterMap.mp h
    split at hi
    · exact ⟨hpos, i, hi⟩
    · cases hi
  · cases h

theorem mem_setNames {x : HistData} {entries : Nat} {n : Path} (h : n ∈ setNames entries x) :
    ∃ i : Fin fnameMax, x.fname i = some n := by
  obtain ⟨i, _, hi⟩ := List.mem_filterMap.mp h
  split at hi
  · exact ⟨i, hi⟩
  · cases hi

end Unlinked

/-! ## Where a file goes -/

section Place
variable {h : History} {entries dt q : Nat} {e : Fin fnameMax} {cp : Path}

/-- What a file does to the ring: only a slot that is opened for it loses its date and its names. -/
structure Placed (h h' : History) (dt : Nat) (e : Fin fnameMax) (cp : Path) : Prop where
  size : h'.nhist = h.nhist
  cur : h'.curhistp = (h.slotFor dt).getD h.next
  date : ∀ p, (h.slotFor dt = none → p ≠ h.next) → h'.date p = h.date p
  kept : ∀ p n, (h.slotFor dt = none → p ≠ h.next) → h.Names p n → h'.Names p n
  names : ∀ p n, h'.Names p n → h.Names p n ∨ h.storedIn dt e = some p ∧ n = cp

theorem names_addFile {x : HistData} {n : Path} (hn : ∃ i, (addFile x e cp).fname i = some n) :
    (∃ i, x.fname i = some n) ∨ n = cp := by
  obtain ⟨i, hi⟩ := hn
  by_cases hie : i = e
  · subst hie
    right
    simpa [addFile, eq_comm] using hi
  · left
    exact ⟨i, by simpa [addFile, hie] using hi⟩

theorem placed_fill (hslot : h.slotFor dt = some q) :
    Placed h ({ h with curhistp := q }.fill entries e cp).1 dt e cp := by
  unfold History.fill
  simp only
  split
  · exact ⟨rfl, by rw [hslot]; rfl, fun _ _ => rfl, fun _ _ _ hn => hn, fun _ _ hn => Or.inl hn⟩
  · rename_i hfree
    have hnone : (h.history q).fname e = none := by simpa using hfree
    refine ⟨rfl, by rw [hslot]; rfl, fun p _ => ?_, fun p n _ hn => ?_, fun p n hn => ?_⟩
    · by_cases hp : p = q
      · subst hp
        simp [History.date, addFile]
      · simp [History.date, hp]
    · by_cases hp : p = q
      · subst hp
        obtain ⟨i, hi⟩ := hn
        have hie : i ≠ e := by
          rintro rfl
          rw [hnone] at hi
          cases hi
        exact ⟨i, by simpa [addFile, hie] using hi⟩
      · obtain ⟨i, hi⟩ := hn
        exact ⟨i, by simpa [hp] using hi⟩
    · by_cases hp : p = q
      · subst hp
        have hnew : ∃ i, (addFile (h.history p) e cp).fname i = some n := by
          simpa [History.Names] using hn
        refine (names_addFile hnew).imp id fun hcp => ⟨?_, hcp⟩
        unfold History.storedIn
        rw [hslot]
        exact if_neg hfree
      · left
        simpa [History.Names, hp] using hn

theorem placed_newEntry (hslot : h.slotFor dt = none) :
    Placed h ({ h with curhistp := h.next }.newEntry entries dt e cp) dt e cp := by
  refine ⟨rfl, by rw [hslot]; rfl, fun p hp => ?_, fun p n hp hn => ?_, fun p n hn => ?_⟩
  · simp [History.newEntry, History.date, hp hslot]
  · obtain ⟨i, hi⟩ := hn
    exact ⟨i, by simpa [History.newEntry, hp hslot] using hi⟩
  · by_cases hp : p = h.next
    · subst hp
      have hnew : ∃ i, (addFile { cleared (h.history h.next) entries with date := dt } e cp).fname i =
          some n := by
        simpa [History.Names, History.newEntry] using hn
      rcases names_addFile hnew with ⟨i, hi⟩ | hcp
      · exact Or.inl ⟨i, fname_cleared hi⟩
      · refine Or.inr ⟨?_, hcp⟩
        unfold History.storedIn
        rw [hslot]
    · left
      simpa [History.Names, History.newEntry, hp] using hn

theorem enter_placed : Placed h (h.enter entries dt e cp).1 dt e cp := by
  rw [enter_eq]
  cases hslot : h.slotFor dt with
  | some q => exact placed_fill hslot
  | none => exact placed_newEntry hslot

/-- What is returned is the current slot, which was there before. -/
theorem enter_returned (hr : (h.enter entries dt e cp).2.1 = some q) :
    q = (h.enter entries dt e cp).1.curhistp ∧ h.slotFor dt ≠ none := by
  rw [enter_eq] at hr ⊢
  cases hslot : h.slotFor dt with
  | some p =>
    rw [hslot] at hr
    simp only at hr ⊢
    unfold History.fill at hr ⊢
    simp only at hr ⊢
    split at hr
    · cases hr
    · rename_i hfree
      split at hr
      · rw [if_neg hfree]
        exact ⟨(Option.some.inj hr).symm, by simp⟩
      · cases hr
  | none =>
    rw [hslot] at hr
    cases hr

theorem step_placed {cfg : Config} {s t : State} {l : Label} {a : Arrival}
    (ha : cfg.arrival l = some a) (hstep : Kwatcher.step cfg s l = some t) :
    t.arrived = s.arrived ++ [a] ∧ Placed s.hist t.hist a.date a.entpoint a.fnam ∧
      ∀ x, returned cfg s l = some x →
        x = t.hist.history t.hist.curhistp ∧ s.hist.slotFor a.date ≠ none := by
  obtain ⟨r, hr, rfl⟩ := Option.map_eq_some_iff.mp hstep
  obtain ⟨_, hhist, hentry⟩ := mkhist_arrival ha hr
  refine ⟨by rw [ha]; rfl, by rw [hhist]; exact enter_placed, fun x hx => ?_⟩
  unfold returned at hx
  rw [hr, Option.bind_some] at hx
  obtain ⟨q, hq, rfl⟩ := Option.map_eq_some_iff.mp hx
  obtain ⟨hcur, hslot⟩ := enter_returned (hentry ▸ hq)
  rw [hcur, ← hhist]
  exact ⟨rfl, hslot⟩

end Place

/-! ## The ages of the slots -/

section Ages
variable {cfg : Config} {g g' : Aged} {e : Event} {es : List Event} {l : Label}

/-- Slot `q` was never opened, and has no date, or it was opened in its turn. -/
def Aged.Turn (g : Aged) (q : Nat) : Prop :=
  g.born q = 0 ∧ g.sys.kw.hist.date q = 0 ∧ (g.opened < if q = 0 then maxHistory else q) ∨
    0 < g.born q ∧ g.born q % maxHistory = q ∧ g.opened < g.born q + maxHistory

/-- The entry `x` was returned from the slot of number `k`: as long as that slot has not been taken
over, no older slot has a file of that name. -/
structure Aged.Young (cfg : Config) (g : Aged) (k : Nat) (x : HistData) : Prop where
  le : k ≤ g.opened
  arrived : ∀ n ∈ setNames cfg.sync_nsize x, ∃ a ∈ g.sys.kw.arrived, a.fnam = n
  newer : g.opened < k + maxHistory → ∀ n ∈ setNames cfg.sync_nsize x,
    ∀ q < maxHistory, g.sys.kw.hist.Names q n → k ≤ g.born q
  held : g.opened < k + maxHistory → 0 < k → ∀ n ∈ setNames cfg.sync_nsize x,
    ∃ q < maxHistory, g.born q = k ∧ g.sys.kw.hist.Names q n

/-- Only these counters and the ring matter. -/
theorem Aged.Young.congr {k : Nat} {x : HistData} (h : g.Young cfg k x)
    (hopened : g'.opened = g.opened) (hborn : g'.born = g.born)
    (hkw : g'.sys.kw = g.sys.kw) : g'.Young cfg k x := by
  obtain ⟨hle, harr, hnewer, hheld⟩ := h
  constructor
  · rwa [hopened]
  · rwa [hkw]
  · rwa [hopened, hborn, hkw]
  · rwa [hopened, hborn, hkw]

structure Ages (cfg : Config) (g : Aged) : Prop where
  fits : FitsArray g.sys.kw.hist
  size : g.sys.kw.hist.nhist = maxHistory
  last : g.last = g.opened % maxHistory
  le : ∀ q, g.born q ≤ g.opened
  turn : ∀ q < maxHistory, g.Turn q
  apart : ∀ n, ∀ p < maxHistory, ∀ q < maxHistory,
    g.sys.kw.hist.Names p n → g.sys.kw.hist.Names q n → p = q
  arrived : ∀ q < maxHistory, ∀ n, g.sys.kw.hist.Names q n → ∃ a ∈ g.sys.kw.arrived, a.fnam = n
  pending : ∀ x, g.sys.pending = some x → g.Young cfg g.pending x
  sent : ∀ f x, g.sys.sent f = some x → g.Young cfg (g.sent f) x

theorem not_names_zero (q : Nat) (n : Path) : ¬ (History.init maxHistory).Names q n := by
  rintro ⟨i, hi⟩
  cases hi

theorem ages_init (content : Bool → List UInt8) : Ages cfg (.init content) where
  fits := ⟨Nat.succ_pos 4, le_refl _, Nat.succ_pos 4⟩
  size := rfl
  last := rfl
  le := fun _ => le_refl 0
  turn := fun q _ => Or.inl ⟨rfl, rfl, by
    change 0 < _
    split
    · decide
    · omega⟩
  apart := fun n p _ q _ hp _ => absurd hp (not_names_zero p n)
  arrived := fun q _ n hn => absurd hn (not_names_zero q n)
  pending := fun x hx => by cases hx
  sent := fun f x hx => by cases hx

theorem Ages.next_eq (h : Ages cfg g) (hlast : g.sys.kw.hist.curhistp = g.last) :
    g.sys.kw.hist.next = (g.opened + 1) % maxHistory := by
  rw [History.next, hlast, h.last, h.size, Nat.mod_add_mod]

/-- The slot whose turn it is was never opened, or `maxHistory` numbers ago. -/
theorem Ages.next_born (h : Ages cfg g) (hlast : g.sys.kw.hist.curhistp = g.last) :
    g.born g.sys.kw.hist.next = 0 ∧ g.sys.kw.hist.date g.sys.kw.hist.next = 0 ∨
      g.opened + 1 = g.born g.sys.kw.hist.next + maxHistory := by
  have hle := h.le g.sys.kw.hist.next
  rcases h.turn _ (h.size ▸ h.fits.next_lt) with ⟨hborn, hdate, _⟩ | ⟨_, hturn, hlt⟩
  · exact Or.inl ⟨hborn, hdate⟩
  · right
    have hmod := hturn.trans (h.next_eq hlast)
    by_contra hne
    exact RingIndex.mod_ne_of_lt (a := g.born g.sys.kw.hist.next) (by omega) (by omega) hmod

/-- The file of `l` finds its slot. -/
def Aged.found (cfg : Config) (g : Aged) (l : Label) (kw : State) : Aged :=
  { g with
    sys := { g.sys with kw := kw, pending := returned cfg g.sys.kw l }
    pending := g.born kw.hist.curhistp }

/-- The file of `l` gets a slot of its own. -/
def Aged.fresh (cfg : Config) (g : Aged) (l : Label) (kw : State) : Aged :=
  { g with
    sys := { g.sys with kw := kw, pending := returned cfg g.sys.kw l }
    opened := g.opened + 1
    last := kw.hist.curhistp
    born := Function.update g.born kw.hist.curhistp (g.opened + 1) }

section Arrive
variable {kw : State} {a : Arrival} {k : Nat} {x : HistData}

/-- A name that is new in a slot stands in no other one. -/
theorem names_placed (ha : cfg.arrival l = some a) (hnames : NamesApart cfg g.sys.kw l)
    (hp : Placed g.sys.kw.hist kw.hist a.date a.entpoint a.fnam) {p : Nat} {n : Path}
    (hn : kw.hist.Names p n) : g.sys.kw.hist.Names p n ∨
      g.sys.kw.hist.storedIn a.date a.entpoint = some p ∧ n = a.fnam ∧
        ∀ r < maxHistory, g.sys.kw.hist.Names r n → r = p := by
  rcases hp.names p n hn with hbefore | ⟨hin, rfl⟩
  · exact Or.inl hbefore
  · refine Or.inr ⟨hin, rfl, fun r hr hrn => ?_⟩
    by_contra hne
    exact hnames.1 a ha p hin r hr hne hrn

theorem apart_placed (h : Ages cfg g) (ha : cfg.arrival l = some a)
    (hnames : NamesApart cfg g.sys.kw l)
    (hp : Placed g.sys.kw.hist kw.hist a.date a.entpoint a.fnam) (n : Path) :
    ∀ p < maxHistory, ∀ q < maxHistory, kw.hist.Names p n → kw.hist.Names q n → p = q := by
  intro p hplt q hqlt hpn hqn
  rcases names_placed ha hnames hp hpn with hpold | ⟨hpin, _, hponly⟩
  · rcases names_placed ha hnames hp hqn with hqold | ⟨_, _, hqonly⟩
    · exact h.apart n p hplt q hqlt hpold hqold
    · exact hqonly p hplt hpold
  · rcases names_placed ha hnames hp hqn with hqold | ⟨hqin, _, _⟩
    · exact (hponly q hqlt hqold).symm
    · exact Option.some.inj (hpin.symm.trans hqin)

theorem arrived_placed (h : Ages cfg g)
    (hp : Placed g.sys.kw.hist kw.hist a.date a.entpoint a.fnam)
    (harr : kw.arrived = g.sys.kw.arrived ++ [a]) :
    ∀ q < maxHistory, ∀ n, kw.hist.Names q n → ∃ b ∈ kw.arrived, b.fnam = n := by
  intro q hq n hn
  rw [harr]
  rcases hp.names q n hn with hold | ⟨_, rfl⟩
  · obtain ⟨b, hb, hbn⟩ := h.arrived q hq n hold
    exact ⟨b, List.mem_append_left _ hb, hbn⟩
  · exact ⟨a, List.mem_append_right _ (List.mem_singleton_self a), rfl⟩

theorem Aged.Young.found (hx : g.Young cfg k x) (hslot : g.sys.kw.hist.slotFor a.date ≠ none)
    (ha : cfg.arrival l = some a) (hnames : NamesApart cfg g.sys.kw l)
    (hp : Placed g.sys.kw.hist kw.hist a.date a.entpoint a.fnam)
    (harr : kw.arrived = g.sys.kw.arrived ++ [a]) : (g.found cfg l kw).Young cfg k x := by
  refine ⟨hx.le, fun n hn => ?_, fun hwin n hn q hq hqn => ?_, fun hwin hk n hn => ?_⟩
  · obtain ⟨b, hb, hbn⟩ := hx.arrived n hn
    refine ⟨b, ?_, hbn⟩
    change b ∈ kw.arrived
    rw [harr]
    exact List.mem_append_left _ hb
  · rcases names_placed ha hnames hp hqn with hold | ⟨_, _, honly⟩
    · exact hx.newer hwin n hn q hq hold
    · rcases Nat.eq_zero_or_pos k with rfl | hk
      · exact Nat.zero_le _
      · obtain ⟨r, hr, hborn, hrn⟩ := hx.held hwin hk n hn
        exact (honly r hr hrn ▸ hborn).ge
  · obtain ⟨r, hr, hborn, hrn⟩ := hx.held hwin hk n hn
    exact ⟨r, hr, hborn, hp.kept r n (fun hnone => absurd hnone hslot) hrn⟩

theorem Ages.found (h : Ages cfg g) (hslot : g.sys.kw.hist.slotFor a.date ≠ none)
    (ha : cfg.arrival l = some a) (hnames : NamesApart cfg g.sys.kw l)
    (hkw : Kwatcher.step cfg g.sys.kw l = some kw) : Ages cfg (g.found cfg l kw) := by
  obtain ⟨harr, hp, hret⟩ := step_placed ha hkw
  obtain ⟨q, hq⟩ := Option.ne_none_iff_exists'.mp hslot
  have hcur : kw.hist.curhistp = q := by rw [hp.cur, hq]; rfl
  have hqlt : q < maxHistory := slotFor_lt h.fits hq
  have hsize : kw.hist.nhist = maxHistory := hp.size.trans h.size
  have hapart := apart_placed h ha hnames hp
  refine ⟨⟨?_, ?_, ?_⟩, hsize, h.last, h.le, fun p hp' => ?_, hapart, arrived_placed h hp harr,
    fun x hx => ?_, fun f x hx => (h.sent f x hx).found hslot ha hnames hp harr⟩
  · exact hsize.symm ▸ Nat.succ_pos 4
  · exact hsize.le
  · change kw.hist.curhistp < kw.hist.nhist
    rw [hcur, hsize]
    exact hqlt
  · have hturn := h.turn p hp'
    rwa [Aged.Turn, ← hp.date p fun hnone => absurd hnone hslot] at hturn
  · -- the entry returned is that of the current slot
    obtain ⟨rfl, _⟩ := hret x hx
    have hnamed : ∀ n ∈ setNames cfg.sync_nsize (kw.hist.history kw.hist.curhistp),
        kw.hist.Names kw.hist.curhistp n := fun n hn => mem_setNames hn
    have hlt : kw.hist.curhistp < maxHistory := hcur ▸ hqlt
    refine ⟨h.le _, fun n hn => ?_, fun _ n hn p hplt hpn => ?_, fun _ _ n hn => ?_⟩
    · exact arrived_placed h hp harr _ hlt n (hnamed n hn)
    · rw [hapart n p hplt _ hlt hpn (hnamed n hn)]
      exact le_refl _
    · exact ⟨_, hlt, rfl, hnamed n hn⟩

theorem Aged.Young.fresh (h : Ages cfg g) (hx : g.Young cfg k x)
    (hlast : g.sys.kw.hist.curhistp = g.last) (hslot : g.sys.kw.hist.slotFor a.date = none)
    (ha : cfg.arrival l = some a) (hnames : NamesApart cfg g.sys.kw l)
    (hp : Placed g.sys.kw.hist kw.hist a.date a.entpoint a.fnam)
    (harr : kw.arrived = g.sys.kw.arrived ++ [a]) : (g.fresh cfg l kw).Young cfg k x := by
  have hcur : kw.hist.curhistp = g.sys.kw.hist.next := by rw [hp.cur, hslot]; rfl
  have hin : g.sys.kw.hist.storedIn a.date a.entpoint = some g.sys.kw.hist.next := by
    unfold History.storedIn
    rw [hslot]
  refine ⟨hx.le.trans (Nat.le_succ _), fun n hn => ?_, fun hwin n hn q hq hqn => ?_,
    fun hwin hk n hn => ?_⟩
  · obtain ⟨b, hb, hbn⟩ := hx.arrived n hn
    refine ⟨b, ?_, hbn⟩
    change b ∈ kw.arrived
    rw [harr]
    exact List.mem_append_left _ hb
  · change k ≤ Function.update g.born kw.hist.curhistp (g.opened + 1) q
    rw [hcur]
    by_cases hqnext : q = g.sys.kw.hist.next
    · rw [hqnext, Function.update_self]
      exact hx.le.trans (Nat.le_succ _)
    · rw [Function.update_of_ne hqnext]
      rcases names_placed ha hnames hp hqn with hold | ⟨hqin, _, _⟩
      · exact hx.newer (Nat.lt_of_succ_lt hwin) n hn q hq hold
      · exact absurd (Option.some.inj (hqin.symm.trans hin)) hqnext
  · obtain ⟨r, hr, hborn, hrn⟩ := hx.held (Nat.lt_of_succ_lt hwin) hk n hn
    have hne : r ≠ g.sys.kw.hist.next := by
      rintro rfl
      change g.opened + 1 < k + maxHistory at hwin
      rcases h.next_born hlast with ⟨hzero, _⟩ | hturn
      · omega
      · omega
    refine ⟨r, hr, ?_, hp.kept r n (fun _ => hne) hrn⟩
    change Function.update g.born kw.hist.curhistp (g.opened + 1) r = k
    rw [hcur, Function.update_of_ne hne, hborn]

theorem Ages.fresh (h : Ages cfg g) (hlast : g.sys.kw.hist.curhistp = g.last)
    (hslot : g.sys.kw.hist.slotFor a.date = none) (ha : cfg.arrival l = some a)
    (hnames : NamesApart cfg g.sys.kw l) (hkw : Kwatcher.step cfg g.sys.kw l = some kw) :
    Ages cfg (g.fresh cfg l kw) := by
  obtain ⟨harr, hp, hret⟩ := step_placed ha hkw
  have hcur : kw.hist.curhistp = g.sys.kw.hist.next := by rw [hp.cur, hslot]; rfl
  have hnext := h.next_eq hlast
  have hsize : kw.hist.nhist = maxHistory := hp.size.trans h.size
  refine ⟨⟨?_, ?_, ?_⟩, hsize, ?_, fun p => ?_, fun p hplt => ?_, apart_placed h ha hnames hp,
    arrived_placed h hp harr, fun x hx => ?_,
    fun f x hx => (h.sent f x hx).fresh h hlast hslot ha hnames hp harr⟩
  · exact hsize.symm ▸ Nat.succ_pos 4
  · exact hsize.le
  · change kw.hist.curhistp < kw.hist.nhist
    rw [hcur, hp.size]
    exact h.fits.next_lt
  · exact hcur.trans hnext
  · change Function.update g.born kw.hist.curhistp (g.opened + 1) p ≤ g.opened + 1
    rw [Function.update_apply]
    split
    · exact le_refl _
    · exact (h.le p).trans (Nat.le_succ _)
  · unfold Aged.Turn
    change Function.update g.born kw.hist.curhistp (g.opened + 1) p = 0 ∧ kw.hist.date p = 0 ∧ _ ∨
      0 < Function.update g.born kw.hist.curhistp (g.opened + 1) p ∧
        Function.update g.born kw.hist.curhistp (g.opened + 1) p % maxHistory = p ∧
          g.opened + 1 < Function.update g.born kw.hist.curhistp (g.opened + 1) p + maxHistory
    by_cases hpnext : p = g.sys.kw.hist.next
    · subst hpnext
      rw [hcur, Function.update_self]
      exact Or.inr ⟨Nat.succ_pos _, hnext.symm, Nat.lt_add_of_pos_right (Nat.succ_pos 4)⟩
    · have hpturn : p ≠ (g.opened + 1) % maxHistory := hnext ▸ hpnext
      rw [hcur, Function.update_of_ne hpnext, hp.date p fun _ => hpnext]
      unfold maxHistory at hplt hpturn ⊢
      have hturn := h.turn p hplt
      unfold Aged.Turn maxHistory at hturn
      change _ ∧ _ ∧ (g.opened + 1 < if p = 0 then 5 else p) ∨ _
      refine hturn.imp ?_ ?_
      · rintro ⟨hborn, hdate, hlt⟩
        refine ⟨hborn, hdate, ?_⟩
        split at hlt
        · rw [if_pos ‹_›]
          omega
        · rw [if_neg ‹_›]
          omega
      · rintro ⟨hpos, hmod, hlt⟩
        exact ⟨hpos, hmod, by omega⟩
  · obtain ⟨_, hfound⟩ := hret x hx
    exact absurd hslot hfound

end Arrive

/-! ## Runs -/

theorem ages_arrive {t : System} (h : Ages cfg g) (ho : g.Orderly cfg (.arrive l))
    (hstep : g.sys.step cfg (.arrive l) = some t) : Ages cfg (g.count cfg t (.arrive l)) := by
  obtain ⟨kw, hkw, rfl⟩ := step_arrive hstep
  obtain ⟨hlast, hnames⟩ := ho
  unfold Aged.count
  simp only
  cases ha : cfg.arrival l with
  | none =>
    have hopens : ¬ Opens cfg g.sys.kw.hist l := by
      rintro ⟨a, hmem, _⟩
      rw [ha] at hmem
      cases hmem
    obtain ⟨rfl, hnone⟩ := step_other ha hkw
    rw [if_neg hopens]
    refine ⟨h.fits, h.size, h.last, h.le, h.turn, h.apart, h.arrived, fun x hx => ?_,
      fun f x hx => ?_⟩
    · have hret : returned cfg g.sys.kw l = some x := hx
      rw [hnone] at hret
      cases hret
    · exact (h.sent f x hx).congr rfl rfl rfl
  | some a =>
    cases hslot : g.sys.kw.hist.slotFor a.date with
    | none =>
      have hopens : Opens cfg g.sys.kw.hist l := ⟨a, ha, hslot⟩
      rw [if_pos hopens]
      exact h.fresh (hlast hopens) hslot ha hnames hkw
    | some q =>
      have hopens : ¬ Opens cfg g.sys.kw.hist l := by
        rintro ⟨b, hmem, hnone⟩
        rw [ha] at hmem
        rw [← Option.some.inj hmem, hslot] at hnone
        cases hnone
      rw [if_neg hopens]
      exact h.found (by simp [hslot]) ha hnames hkw

theorem ages_step (h : Ages cfg g) (ho : g.Orderly cfg e) (hstep : g.step cfg e = some g') :
    Ages cfg g' := by
  obtain ⟨t, ht, rfl⟩ := Option.map_eq_some_iff.mp hstep
  cases e with
  | arrive l => exact ages_arrive h ho ht
  | publish =>
    obtain ⟨f, x, hkpc, hx, lock, _, rfl⟩ := step_publish ht
    unfold Aged.count
    rw [hkpc]
    refine ⟨h.fits, h.size, h.last, h.le, h.turn, h.apart, h.arrived, fun y hy => ?_,
      fun f' y hy => ?_⟩
    · cases hy
    by_cases hf : f' = f
    · subst hf
      simp only [Function.update_self] at hy ⊢
      obtain rfl := Option.some.inj hy
      exact (h.pending x hx).congr rfl rfl rfl
    · simp only [Function.update_of_ne hf] at hy ⊢
      exact (h.sent f' y hy).congr rfl rfl rfl
  | lockStep l =>
    obtain ⟨lock, _, _, rfl⟩ := step_lockStep ht
    refine ⟨h.fits, h.size, h.last, h.le, h.turn, h.apart, h.arrived, fun x hx => ?_,
      fun f x hx => ?_⟩
    · exact (h.pending x hx).congr rfl rfl rfl
    · exact (h.sent f x hx).congr rfl rfl rfl

/-- A set whose slot has not been taken over loses no file. -/
theorem Ages.not_unlinked {k : Nat} {x : HistData} (h : Ages cfg g)
    (ho : g.Orderly cfg (.arrive l)) (hx : g.Young cfg k x)
    (hnew : g.openedBy cfg (.arrive l) < k + maxHistory) :
    ∀ n ∈ setNames cfg.sync_nsize x, n ∉ g.sys.unlinks cfg (.arrive l) := by
  intro n hn hmem
  rcases mem_unlinks hmem with ⟨hpath, hunexpected⟩ | ⟨a, ha, hslot, hin⟩
  · obtain ⟨b, hb, hbn⟩ := hx.arrived n hn
    exact ho.2.2 hunexpected b hb (hbn.trans hpath)
  · have hopens : Opens cfg g.sys.kw.hist l := ⟨a, ha, hslot⟩
    unfold Aged.openedBy at hnew
    simp only [if_pos hopens] at hnew
    obtain ⟨hpos, hheld⟩ := mem_removed hin
    have hlt : g.sys.kw.hist.next < maxHistory := h.size ▸ h.fits.next_lt
    have hnewer := hx.newer (Nat.lt_of_succ_lt hnew) n hn _ hlt hheld
    rcases h.next_born (ho.1 hopens) with ⟨_, hdate⟩ | hturn
    · exact absurd hdate hpos.ne'
    · omega

/-- The counters do not disturb a run. -/
theorem exists_aged (content : Bool → List UInt8) {s : System}
    (h : exec (System.step cfg) (System.init content) es = some s) :
    ∃ g, exec (Aged.step cfg) (.init content) es = some g ∧ g.sys = s := by
  induction es using List.reverseRecOn generalizing s with
  | nil =>
    obtain rfl : System.init content = s := Option.some.inj h
    exact ⟨_, rfl, rfl⟩
  | append_singleton es e ih =>
    obtain ⟨t, ht, hstep⟩ := exec_snoc_iff.mp h
    obtain ⟨g, hg, rfl⟩ := ih ht
    refine ⟨g.count cfg s e, exec_snoc_iff.mpr ⟨g, hg, ?_⟩, ?_⟩
    · unfold Aged.step
      rw [hstep]
      rfl
    · unfold Aged.count
      cases e with
      | arrive l =>
        simp only
        split <;> rfl
      | publish =>
        simp only
        split <;> rfl
      | lockStep l => rfl

/-- A set that a client reads keeps its files as long as fewer than `nhist` slots have been opened
since its own, in whatever order the files arrive, if no slot is opened while the current one is
not the slot opened last, and the names are kept apart. -/
theorem reader_keeps_files (content : Bool → List UInt8)
    (h : exec (Aged.step cfg) (.init content) es = some g)
    (ho : Along (Aged.step cfg) (Aged.Orderly cfg) (.init content) (es ++ [e]))
    {i : Nat} {f : Bool} {x : HistData} (hr : g.sys.Reads i f x)
    (hnew : g.openedBy cfg e < g.sent f + maxHistory) :
    ∀ n ∈ setNames cfg.sync_nsize x, n ∉ g.sys.unlinks cfg e := by
  obtain ⟨hpast, hnow⟩ := (along_snoc_iff h).mp ho
  have hages : Ages cfg g := exec_invariant_along ages_step (ages_init content) hpast h
  cases e with
  | arrive l => exact hages.not_unlinked hnow (hages.sent f x hr.2.2) hnew
  | publish => exact fun _ _ => List.not_mem_nil
  | lockStep l => exact fun _ _ => List.not_mem_nil

end Ages

/-! ## Single runs -/

/-- The set that the files `before` have completed is published in the first lock file, client 0
locks it, and more files come. -/
def readerRun (before after : List Label) : List Event :=
  .lockStep .lock :: (before.map .arrive ++
    ([.publish, .lockStep .unlock, .lockStep .lock, .lockStep (.clientLock 0)] : List Event) ++
      after.map .arrive)

/-- The set of date 2 is read. Of the newer dates 4 and 3 come late, are not found, and get slots of
their own. -/
def disorderRun : List Event :=
  readerRun [fileA 1, fileA 2, fileB 2] [fileA 5, fileA 4, fileA 3]

/-- Date 6 takes the slot of date 1, the fourth slot after that of the set. -/
theorem reader_keeps_files_two :
    ∃ g, exec (Aged.step twoTypes) (.init fun _ => []) disorderRun = some g ∧ ∃ x,
      g.sys.Reads 0 false x ∧ x.date = 2 ∧ g.sent false = 2 ∧
      g.sys.unlinks twoTypes (.arrive (fileA 6)) = [(fileA 1).path] ∧
      ∀ n ∈ setNames twoTypes.sync_nsize x, n ∉ g.sys.unlinks twoTypes (.arrive (fileA 6)) := by
  refine ⟨_, rfl, _, ⟨Or.inl rfl, by decide, rfl⟩, rfl, rfl, by decide, ?_⟩
  exact @reader_keeps_files twoTypes _ (.arrive (fileA 6)) disorderRun (fun _ => []) rfl (by decide)
    0 false _ ⟨Or.inl rfl, by decide, rfl⟩ (by decide)

/-- In this run client 0 reads a set of which the last file makes `mkhist` unlink one. -/
def LosesFile (cfg : Config) (before after : List Label) (l : Label) : Prop :=
  ∃ s, exec (System.step cfg) (System.init fun _ => []) (readerRun before after) = some s ∧
    ∃ x, s.Reads 0 false x ∧ ∃ n ∈ setNames cfg.sync_nsize x, n ∈ s.unlinks cfg (.arrive l)

def threeTypes : Config := { twoTypes with synctype := twoTypes.synctype ++ [⟨[67], by decide⟩] }

def fileC (d : Nat) : Label := file (UInt8.ofNat (48 + d % 10)) 67 (digit_ne d 67 (by decide))

/-- The new name of a file is its type. -/
def byType : Config where
  regex_match := fun path => (twoTypes.regex_match path).map fun m => (m.1, m.2.1, m.2.1)
  synctype := twoTypes.synctype

/-- The fifth slot after that of the set is its own. Fewer are enough when a slot is opened behind
an older one, in which a late file was stored; when a file of another date comes under a name of
the set; and when a file of an unexpected type does. -/
theorem file_unlinked_while_read :
    LosesFile twoTypes [fileA 1, fileB 1] [fileA 2, fileA 3, fileA 4, fileA 5] (fileA 6) ∧
    LosesFile threeTypes [fileA 1, fileA 2, fileA 3, fileB 3, fileC 3] [fileB 1, fileA 4] (fileA 5) ∧
    LosesFile byType [fileA 1, fileA 2, fileB 2] [fileA 3, fileA 4, fileA 5] (fileA 6) ∧
    LosesFile byType [fileA 1, fileB 1] [] ⟨⟨[65], by decide⟩, true⟩ := by
  refine ⟨?_, ?_, ?_, ?_⟩
  · exact ⟨_, rfl, _, ⟨Or.inl rfl, by decide, rfl⟩, ⟨[49, 65], by decide⟩, by decide, by decide⟩
  · exact ⟨_, rfl, _, ⟨Or.inl rfl, by decide, rfl⟩, ⟨[51, 65], by decide⟩, by decide, by decide⟩
  · exact ⟨_, rfl, _, ⟨Or.inl rfl, by decide, rfl⟩, ⟨[65], by decide⟩, by decide, by decide⟩
  · exact ⟨_, rfl, _, ⟨Or.inl rfl, by decide, rfl⟩, ⟨[65], by decide⟩, by decide, by decide⟩

end JitDt.Kwatcher
