import JitDt.Kwatcher.Mkhist
import JitDt.Lwatcher.Independence
import JitDt.Regexplib.Acceptor

/-!
# Type indices of lwatcher

`readconf` takes up to ten synchronised types, an entry of the history and a request have
room for three. `histput` refuses an index greater than the number of places, so it lets
the first index behind them through; `transfer` counts up to `sync_nsize()`. What `regexec`
and the regions of the configuration make of a file name is a parameter.
-/

namespace JitDt.Lwatcher

set_option autoImplicit false

open Misclib Jitcclient Machine Regexplib

theorem nul_not_mem_cstrOf (s : List UInt8) : (0 : UInt8) ∉ cstrOf s := by
  intro hmem
  have h := List.mem_takeWhile_imp hmem
  simp at h

/-- The names in `synctype[0 .. syncent)`. -/
def synctypes (t : Tables) : List CStr :=
  (List.range t.sent).map fun i => ⟨cstrOf (t.synctype i), nul_not_mem_cstrOf _⟩

/-- The watching thread: its directory, and the date and the type in a file name. -/
structure Watch where
  indir : List UInt8
  regex_match : List UInt8 → Option (CStr × CStr)

namespace Watch

/-- The name behind the watched directory, as far as it fits the buffer. -/
def fname (w : Watch) (fpath : Path) : List UInt8 :=
  ((fpath.bytes.drop w.indir.length).dropWhile (· = 47)).take 1023

/-- What `watcher` passes to `histput`; other files are skipped or unlinked. -/
def watcher (w : Watch) (types : List CStr) (fpath : Path) : Option Label :=
  match w.regex_match (w.fname fpath) with
  | none => none
  | some (date, type) =>
    (types.idxOf? type).map fun tp : Nat => .histput fpath (Kwatcher.atoll date) (tp : Int)

end Watch

/-- A `histput` of the run is one of the watcher's. -/
def Issued (w : Watch) (types : List CStr) (_ : State) : Label → Prop
  | .histput path dt tent => w.watcher types path = some (.histput path dt tent)
  | _ => True

/-- In this state an index that is stored, and every index of a GET, is inside the tables. -/
structure IndicesFit (w : Watch) (types : List CStr) (s : State) : Prop where
  stored : ∀ path dt tent, w.watcher types path = some (.histput path dt tent) →
    tent < fnameMax ∨ histput path dt tent s.ring = some s.ring
  checked : ∀ opt hp, s.pc = .test (.get opt) hp → arrived s.nsize (s.ring.history hp) ≠ none
  served : ∀ opt hp, s.pc = .serve opt hp → s.nsize ≤ transoptSize

/-- Whatever files arrive and whatever the clients ask for. -/
def TypesFit (types : List CStr) : Prop :=
  ∀ (w : Watch) (nh : Int) ls s, exec step (init nh types.length) ls = some s →
    Along step (Issued w types) (init nh types.length) ls → IndicesFit w types s

/-! ## An index that no file has -/

/-- No entry has a file at index `j`. -/
def Unused (j : Fin fnameMax) (r : Ring) : Prop := ∀ i, (r.history i).fname j = none

section Unused
variable {j : Fin fnameMax} {r r' : Ring}

theorem Unused.store (h : Unused j r) {t : Fin fnameMax} (ht : t ≠ j) (i : Nat) (cp : Path) :
    Unused j (r.store i t cp) := by
  intro k
  by_cases hk : k = i
  · subst hk
    simp only [Ring.store, Ring.withEntry, Function.update_self]
    rw [Function.update_of_ne ht.symm]
    exact h k
  · simp only [Ring.store, Ring.withEntry, Function.update_of_ne hk]
    exact h k

theorem Unused.removed (h : Unused j r) : Unused j r.removed := by
  intro k
  by_cases hk : k = r.rmhistp
  · simp only [Ring.removed, hk, Function.update_self]
  · simp only [Ring.removed, Function.update_of_ne hk]
    exact h k

theorem Unused.roomy (h : Unused j r) : Unused j r.roomy := by
  have hadv : Unused j r.advanced := h
  unfold Ring.roomy
  split
  · exact hadv.removed
  · exact hadv

theorem Unused.opened (h : Unused j r) {t : Fin fnameMax} (ht : t ≠ j) (d : Nat) (cp : Path) :
    Unused j (r.opened d t cp) := by
  intro k
  by_cases hk : k = nextEntry r
  · simp only [Ring.opened, Ring.withEntry, hk, Function.update_self]
    rw [Function.update_of_ne ht.symm]
    exact h.roomy _
  · simp only [Ring.opened, Ring.withEntry, Function.update_of_ne hk]
    exact h.roomy k

theorem Unused.histput (h : Unused j r) {path : Path} {dt : Int64} {tent : Int} (ht : tent ≠ j.val)
    (hput : Misclib.histput path dt tent r = some r') : Unused j r' := by
  have hne : ∀ t : Fin fnameMax, tent = t.val → t ≠ j := by
    rintro t htent rfl
    exact ht htent
  cases histput_cases hput with
  | refused _ h' => exact h' ▸ h
  | same t ht' _ _ h' => exact h' ▸ h.store (hne t ht') _ path
  | new t ht' _ _ _ h' => exact h' ▸ h.opened (hne t ht') _ path
  | late t ht' i _ _ _ _ h' => exact h' ▸ h.store (hne t ht') i path
  | lost _ _ _ h' => exact h' ▸ h

theorem Unused.step {s s' : State} {l : Label} (h : Unused j s.ring)
    (hl : ∀ path dt tent, l = .histput path dt tent → tent ≠ j.val) (hstep : step s l = some s') :
    Unused j s'.ring := by
  cases step_effect hstep with
  | histput path dt tent hl' hput _ _ => exact h.histput (hl path dt tent hl') hput
  | histremove _ hrem _ =>
    obtain ⟨_, _, hr⟩ := histremove_iff.mp hrem
    rw [hr]
    exact h.removed
  | getReply _ _ _ _ _ _ _ hr _ => exact hr ▸ h
  | quiet _ _ _ hsame _ =>
    intro i
    rw [hsame.history]
    exact h i

end Unused

/-- The completeness check stays inside the entry when it is short, or stops at a place
that is never filled. -/
theorem arrivedFrom_defined {h : HistData} {k i : Nat} (hi : i + k ≤ fnameMax ∨
    ∃ j : Fin fnameMax, i ≤ j.val ∧ h.fname j = none) : arrivedFrom h k i ≠ none := by
  induction k generalizing i with
  | zero =>
    intro hnone
    cases hnone
  | succ k ih =>
    have hlt : i < fnameMax := by
      rcases hi with hi | ⟨j, hij, _⟩
      · omega
      · exact hij.trans_lt j.isLt
    simp only [arrivedFrom, fnameAt, dif_pos hlt, Option.bind_eq_bind, Option.bind_some]
    cases hname : h.fname ⟨i, hlt⟩ with
    | none => simp
    | some path =>
      apply ih
      rcases hi with hi | ⟨j, hij, hj⟩
      · exact Or.inl (by omega)
      · right
        refine ⟨j, ?_, hj⟩
        rcases hij.eq_or_lt with heq | hlt'
        · have hj' : j = ⟨i, hlt⟩ := Fin.ext heq.symm
          rw [hj', hname] at hj
          cases hj
        · exact hlt'

/-! ## The indices of the watcher -/

theorem watcher_tent {w : Watch} {types : List CStr} {path : Path} {l : Label}
    (h : w.watcher types path = some l) : ∃ dt tp, l = .histput path dt (tp : Nat) ∧
      ∃ hlt : tp < types.length, ∀ j (hj : j < tp), types[j] ≠ types[tp] := by
  unfold Watch.watcher at h
  split at h
  · cases h
  · obtain ⟨tp, hidx, rfl⟩ := Option.map_eq_some_iff.mp h
    obtain ⟨hlt, htp, hfirst⟩ := List.idxOf?_eq_some_iff.mp hidx
    refine ⟨_, tp, rfl, hlt, ?_⟩
    intro j hj
    rw [htp]
    exact hfirst j hj

theorem histput_rejects {tent : Int} (ht : (fnameMax : Int) < tent) (path : Path) (dt : Int64)
    (r : Ring) : histput path dt tent r = some r := by
  unfold histput
  exact if_pos (Or.inr ht)

/-- The fourth type is new: a file of it is stored behind the table. -/
def FourthNew (types : List CStr) : Prop :=
  ∃ h : fnameMax < types.length, ∀ j (hj : j < fnameMax), types[j] ≠ types[fnameMax]

theorem stored_of_not_fourthNew {w : Watch} {types : List CStr} (h : ¬ FourthNew types)
    (path : Path) (dt : Int64) (tent : Int) (r : Ring)
    (hw : w.watcher types path = some (.histput path dt tent)) :
    tent < fnameMax ∨ histput path dt tent r = some r := by
  obtain ⟨dt', tp, heq, hlt, hfirst⟩ := watcher_tent hw
  cases heq
  rcases Nat.lt_trichotomy tp fnameMax with htp | rfl | htp
  · exact Or.inl (by omega)
  · exact absurd ⟨hlt, hfirst⟩ h
  · exact Or.inr (histput_rejects (by omega) path dt r)

/-- Every entry of a run has a free place where a type repeats an earlier one. -/
theorem unused_of_repeated {w : Watch} {types : List CStr} {nh : Int} {ls : List Label} {s : State}
    (hrun : exec step (init nh types.length) ls = some s)
    (hissued : Along step (Issued w types) (init nh types.length) ls) {i : Nat} {j : Fin fnameMax}
    (hj : j.val < types.length) (hij : i < j.val) (hsame : types[i] = types[j.val]) :
    Unused j s.ring := by
  refine exec_invariant_along (I := fun s => Unused j s.ring) ?_ (fun _ => rfl) hissued hrun
  intro s l t hs hl hstep
  refine hs.step ?_ hstep
  rintro path dt tent rfl
  obtain ⟨dt', tp, heq, hlt, hfirst⟩ := watcher_tent hl
  cases heq
  intro htp
  obtain rfl : tp = j.val := by omega
  exact hfirst i hij hsame

theorem repeated_of_not_nodup {types : List CStr} (h : ¬ (types.take fnameMax).Nodup) :
    ∃ (i : Nat) (j : Fin fnameMax) (hj : j.val < types.length) (_ : i < j.val),
      types[i] = types[j.val] := by
  by_contra hnone
  apply h
  rw [List.nodup_iff_pairwise_ne, List.pairwise_iff_getElem]
  intro i j hi hj hij heq
  rw [List.length_take] at hj
  rw [List.getElem_take, List.getElem_take] at heq
  exact hnone ⟨i, ⟨j, by omega⟩, by simp only; omega, hij, heq⟩

/-! ## When all indices fit -/

theorem fits_of_few {types : List CStr} (h : types.length ≤ fnameMax) : TypesFit types := by
  intro w nh ls s hrun _
  have hT := exec_threshold hrun
  refine ⟨fun path dt tent => stored_of_not_fourthNew ?_ path dt tent s.ring, ?_, hT.serving⟩
  · rintro ⟨hlt, _⟩
    omega
  · intro opt hp _
    apply arrivedFrom_defined
    have hle := hT.le
    exact Or.inl (by omega)

theorem fits_of_repeated {types : List CStr} (hfourth : ¬ FourthNew types)
    (hnodup : ¬ (types.take fnameMax).Nodup) : TypesFit types := by
  intro w nh ls s hrun hissued
  obtain ⟨i, j, hj, hij, hsame⟩ := repeated_of_not_nodup hnodup
  refine ⟨fun path dt tent => stored_of_not_fourthNew hfourth path dt tent s.ring, ?_,
    (exec_threshold hrun).serving⟩
  intro opt hp _
  have hunused := unused_of_repeated hrun hissued hj hij hsame
  exact arrivedFrom_defined (Or.inr ⟨j, Nat.zero_le _, hunused hp⟩)

/-! ## When one does not -/

def one : CStr := ⟨[49], by simp⟩

def two : CStr := ⟨[50], by simp⟩

def three : CStr := ⟨[51], by simp⟩

/-- A watcher that matches the names `1` and `2` and all others with three types. -/
def threeTypes (t₀ t₁ t₂ : CStr) : Watch where
  indir := []
  regex_match := fun name =>
    if name = [49] then some (one, t₀) else if name = [50] then some (one, t₁) else some (one, t₂)

theorem watcher_eq {w : Watch} {types : List CStr} {path : Path} {date type : CStr} {tp : Nat}
    (hmatch : w.regex_match (w.fname path) = some (date, type)) (hlt : tp < types.length)
    (htype : types[tp] = type) (hfirst : ∀ j (hj : j < tp), types[j] ≠ types[tp]) :
    w.watcher types path = some (.histput path (Kwatcher.atoll date) (tp : Int)) := by
  have hidx : types.idxOf? type = some tp := by
    refine List.idxOf?_eq_some_iff.mpr ⟨hlt, htype, ?_⟩
    intro j hj
    rw [← htype]
    exact hfirst j hj
  unfold Watch.watcher
  rw [hmatch]
  simp only [hidx, Option.map_some]

theorem not_fits_of_fourthNew {types : List CStr} (h : FourthNew types) : ¬ TypesFit types := by
  intro hfit
  obtain ⟨hlt, hfirst⟩ := h
  have hw := @watcher_eq (threeTypes types[fnameMax] types[fnameMax] types[fnameMax]) types
    one one types[fnameMax] fnameMax rfl hlt rfl hfirst
  rcases (hfit _ 20 [] _ rfl trivial).stored _ _ _ hw with hin | hrej
  · exact absurd hin (lt_irrefl _)
  · have hnone : (histput one (Kwatcher.atoll one) fnameMax
        (histinit 20 .static)).isNone = true := by decide +kernel
    change histput _ _ _ (histinit 20 .static) = some (histinit 20 .static) at hrej
    rw [hrej] at hnone
    cases hnone

theorem arrivedFrom_undefined {h : HistData} (hall : ∀ j, h.fname j ≠ none) {k i : Nat}
    (hk : fnameMax < i + k) (hpos : 0 < k) : arrivedFrom h k i = none := by
  induction k generalizing i with
  | zero => omega
  | succ k ih =>
    by_cases hi : i < fnameMax
    · obtain ⟨path, hpath⟩ := Option.ne_none_iff_exists'.mp (hall ⟨i, hi⟩)
      simp only [arrivedFrom, fnameAt, dif_pos hi, hpath, Option.bind_eq_bind, Option.bind_some]
      exact ih (by omega) (by omega)
    · simp only [arrivedFrom, fnameAt, dif_neg hi, Option.bind_eq_bind, Option.bind_none]

/-- Files of three types of one date, and a request for them. -/
def threeFiles : List Label :=
  [.histput one (Kwatcher.atoll one) 0, .histput two (Kwatcher.atoll one) 1,
    .histput three (Kwatcher.atoll one) 2, .accept 4, .command .get fun _ => 1, .histget]

theorem exec_threeFiles (n : Nat) : ∃ s, exec step (init 20 n) threeFiles = some s ∧
    s.pc = .test (.get fun _ => 1) 0 ∧ s.nsize = n ∧ ∀ j, (s.ring.history 0).fname j ≠ none := by
  refine ⟨_, rfl, rfl, rfl, ?_⟩
  intro j
  fin_cases j <;> exact Option.some_ne_none _

theorem not_fits_of_nodup {types : List CStr} (hlt : fnameMax < types.length)
    (hnodup : (types.take fnameMax).Nodup) : ¬ TypesFit types := by
  intro hfit
  have h0 : 0 < types.length := by omega
  have h1 : 1 < types.length := by unfold fnameMax at hlt; omega
  have h2 : 2 < types.length := by unfold fnameMax at hlt; omega
  have hne : ∀ j i (hj : j < types.length) (hij : i < j), j < fnameMax → types[i] ≠ types[j] := by
    intro j i hj hij hsmall
    have hpair := List.pairwise_iff_getElem.mp (List.nodup_iff_pairwise_ne.mp hnodup) i j
      (by rw [List.length_take]; omega) (by rw [List.length_take]; omega) hij
    rwa [List.getElem_take, List.getElem_take] at hpair
  have hissued : ∀ l ∈ threeFiles, ∀ s, Issued (threeTypes types[0] types[1] types[2]) types s l := by
    intro l hl s
    unfold threeFiles at hl
    simp only [List.mem_cons, List.not_mem_nil, or_false] at hl
    rcases hl with rfl | rfl | rfl | rfl | rfl | rfl
    · exact watcher_eq rfl h0 rfl fun i hi => hne 0 i h0 hi (by decide)
    · exact watcher_eq rfl h1 rfl fun i hi => hne 1 i h1 hi (by decide)
    · exact watcher_eq rfl h2 rfl fun i hi => hne 2 i h2 hi (by decide)
    · trivial
    · trivial
    · trivial
  obtain ⟨s, hrun, hpc, hns, hall⟩ := exec_threeFiles types.length
  have halong : Along step (Issued (threeTypes types[0] types[1] types[2]) types)
      (init 20 types.length) threeFiles :=
    (along_of_forall hissued).mono fun s l h => h s
  apply (hfit _ 20 threeFiles s hrun halong).checked _ _ hpc
  rw [hns]
  exact arrivedFrom_undefined hall (by omega) (by omega)

/-- All indices stay inside the tables in every run if and only if there are at most three
types, or the fourth repeats an earlier one and the first three are not all different. -/
theorem typesFit_iff (types : List CStr) : TypesFit types ↔
    types.length ≤ fnameMax ∨ (¬ FourthNew types ∧ ¬ (types.take fnameMax).Nodup) := by
  constructor
  · intro hfit
    by_contra hcond
    rw [not_or, not_le] at hcond
    obtain ⟨hlt, hcond⟩ := hcond
    by_cases hfourth : FourthNew types
    · exact not_fits_of_fourthNew hfourth hfit
    · by_cases hnodup : (types.take fnameMax).Nodup
      · exact not_fits_of_nodup hlt hnodup hfit
      · exact hcond ⟨hfourth, hnodup⟩
  · rintro (hle | ⟨hfourth, hnodup⟩)
    · exact fits_of_few hle
    · exact fits_of_repeated hfourth hnodup

def fourTypes : List UInt8 := ascii "sync\x7btype=a type=b type=c type=d\x7d"

/-- A configuration with four types is accepted. -/
theorem typesFit_fails : ∃ t, readconf true (some fourTypes) [] = pure t ∧
    ¬ TypesFit (synctypes t) := by
  have heval : (Option.any (fun x => x.toOption.any fun t => synctypes t =
      [⟨[97], by simp⟩, ⟨[98], by simp⟩, ⟨[99], by simp⟩, ⟨[100], by simp⟩])
      (readconf true (some fourTypes) [])) = true := by decide +kernel
  obtain ⟨t, ht, htypes⟩ := exists_of_any heval
  refine ⟨t, ht, fun hfit => ?_⟩
  rw [of_decide_eq_true htypes] at hfit
  refine not_fits_of_fourthNew ⟨by decide, ?_⟩ hfit
  decide

end JitDt.Lwatcher
