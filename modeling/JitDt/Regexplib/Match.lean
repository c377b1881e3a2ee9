import JitDt.Regexplib.Acceptor

/-!
# Matching a file name

`regex_init` compiles the patterns of the regions that are counted; `regex_match` tries the
regions up to the first one without a name. The functions of regex.h are a parameter; a compiled
pattern is represented by its text. `none` stands for the use of a pattern that is not compiled.
-/

namespace JitDt.Regexplib

set_option autoImplicit false

open Machine (exec)

/-! ## The functions -/

/-- `regcomp` and `regexec`, which also returns the offsets of the groups. No code is negative. -/
structure Posix where
  regcomp : List UInt8 → Int
  regexec : List UInt8 → List UInt8 → Int × (Nat → Int × Int)
  regcomp_nonneg : ∀ p, 0 ≤ regcomp p
  regexec_nonneg : ∀ p name, 0 ≤ (regexec p name).1

inductive InitFault where
  | conf (f : Fault)
  | compile (pattern : List UInt8)

def InitFault.message (fname errbuf : String) : InitFault → String
  | .conf f => f.message fname
  | .compile pattern =>
    s!"regexinit: compile error: {String.ofList (pattern.map fun c => Char.ofNat c.toNat)}\n" ++
      s!"\t{errbuf}\n"

/-- The tables, and the patterns that `regcomp` has compiled. -/
structure Matcher where
  tables : Tables
  c_preg : Nat → Option (List UInt8)

section Functions
variable (P : Posix)

/-- The loop of `regex_init` over the first regions. -/
def compile (t : Tables) : Nat → Except (List UInt8) (Nat → Option (List UInt8))
  | 0 => pure fun _ => none
  | i + 1 => do
    let c_preg ← compile t i
    let cc := P.regcomp (t.conf i).c_pattern
    if cc < 0 then throw (t.conf i).c_pattern
    else pure (Function.update c_preg i (if cc = 0 then some (t.conf i).c_pattern else none))

def regex_init (signed : Bool) (file : Option (List UInt8)) (buf : List UInt8) :
    Option (Except InitFault Matcher) :=
  match readconf signed file buf with
  | none => none
  | some (.error f) => some (.error (.conf f))
  | some (.ok t) =>
    match compile P t t.cent with
    | .error pattern => some (.error (.compile pattern))
    | .ok c_preg => some (.ok ⟨t, c_preg⟩)

/-- The text of a group. One that took no part has two equal offsets. -/
def group (name : List UInt8) (m : Int × Int) : Option (List UInt8) :=
  if m.2 - m.1 = 0 then some []
  else if 0 ≤ m.1 ∧ m.1 ≤ m.2 ∧ m.2 ≤ name.length then
    some ((name.drop m.1.toNat).take (m.2 - m.1).toNat)
  else none

/-- `none` if an index leaves `pmatch` or the format is read past its end. -/
def matchedcopy (name : List UInt8) (pmatch : Nat → Int × Int) : List UInt8 → Option (List UInt8)
  | [] => some []
  | c :: fmt =>
    if c = '$'.toUInt8 then
      match fmt with
      | [] => none
      | d :: fmt =>
        if isdigit d then do
          let text ← group name (pmatch (d.toNat - '0'.toNat))
          let rest ← matchedcopy name pmatch fmt
          pure (text ++ rest)
        else none
    else (matchedcopy name pmatch fmt).map (c :: ·)

/-- Which of its results the caller asks for. -/
structure Wanted where
  date : Bool
  type : Bool
  fnam : Bool
  thrh : Bool

/-- What is returned, and what `matchedcopy` makes of each format. -/
structure Answer where
  ret : Int
  date : Option (List UInt8)
  type : Option (List UInt8)
  fnam : Option (List UInt8)
  thrh : Option (List UInt8)

def unmatched : Answer := ⟨-1, none, none, none, none⟩

def matched (w : Wanted) (x : Conf) (name : List UInt8) (pmatch : Nat → Int × Int) : Answer where
  ret := 1
  date := if w.date then matchedcopy name pmatch x.c_date else none
  type := if w.type then matchedcopy name pmatch x.c_type else none
  fnam := if w.fnam then matchedcopy name pmatch x.c_fnam else none
  thrh := if w.thrh then matchedcopy name pmatch x.c_thrh else none

/-- `c_area[0] == 0`. -/
def Conf.unnamed (x : Conf) : Prop := x.c_area.headD 0 = 0

instance (x : Conf) : Decidable x.unnamed := inferInstanceAs (Decidable (x.c_area.headD 0 = 0))

/-- The loop from region `i` on, with `k` regions left in the array. -/
def tryRegions (m : Matcher) (name : List UInt8) (w : Wanted) : Nat → Nat → Option Answer
  | 0, _ => none
  | k + 1, i =>
    if (m.tables.conf i).unnamed then some unmatched
    else
      match m.c_preg i with
      | none => none
      | some p =>
        let (cc, pmatch) := P.regexec p name
        if cc < 0 then some unmatched
        else if cc = 0 then some (matched w (m.tables.conf i) name pmatch)
        else tryRegions m name w k (i + 1)

def regex_match (m : Matcher) (name : List UInt8) (w : Wanted) : Option Answer :=
  tryRegions P m name w (maxConf + 1) 0

/-! ## The first region that matches -/

def Matches (t : Tables) (name : List UInt8) (i : Nat) : Prop :=
  P.regcomp (t.conf i).c_pattern = 0 ∧ (P.regexec (t.conf i).c_pattern name).1 = 0

/-- Only compiled patterns are executed, and the first of the counted regions that matches
decides. -/
def FirstWins (m : Matcher) (name : List UInt8) (w : Wanted) : Prop :=
  (∃ i < m.tables.cent, Matches P m.tables name i ∧ (∀ j < i, ¬ Matches P m.tables name j) ∧
    regex_match P m name w = some (matched w (m.tables.conf i) name
      (P.regexec (m.tables.conf i).c_pattern name).2)) ∨
  ((∀ i < m.tables.cent, ¬ Matches P m.tables name i) ∧ regex_match P m name w = some unmatched)

/-- Every region that is tried is counted and has a good pattern, and none behind the first
region without a name would match. -/
def Guarded (t : Tables) (name : List UInt8) : Prop :=
  ∀ i, (∀ j < i, ¬ (t.conf j).unnamed ∧ ¬ Matches P t name j) →
    if (t.conf i).unnamed then ∀ k, i ≤ k → k < t.cent → ¬ Matches P t name k
    else i < t.cent ∧ P.regcomp (t.conf i).c_pattern = 0

end Functions

/-! ## The tables have room -/

/-- The place is inside a region. -/
def Pos.inRegion : Pos → Prop
  | .region => True
  | .brace _ => True
  | .items _ => True
  | .equ m => m.isSome
  | .value m _ => m.isSome
  | _ => False

structure Room (pos : Pos) (t : Tables) : Prop where
  cent_le : t.cent ≤ maxConf
  cent_lt : pos.inRegion → t.cent < maxConf
  conf_zero : ∀ i, maxConf ≤ i → t.conf i = .zero

theorem Room.goto {pos pos' : Pos} {t : Tables} (h : Room pos t) (hpos : pos'.inRegion → pos.inRegion) :
    Room pos' t := ⟨h.cent_le, fun hin => h.cent_lt (hpos hin), h.conf_zero⟩

theorem Room.update {pos pos' : Pos} {t : Tables} (h : Room pos t) (hpos : pos.inRegion) (x : Conf) :
    Room pos' (t.setConf x) := by
  have hlt := h.cent_lt hpos
  refine ⟨h.cent_le, fun _ => hlt, ?_⟩
  intro i hi
  exact (Function.update_of_ne (hlt.trans_le hi).ne' _ _).trans (h.conf_zero i hi)

theorem Room.take {pos pos' : Pos} {t t' : Tables} {buf : List UInt8} {tkn : Token} (h : Room pos t)
    (htake : take t buf pos tkn = some (pos', t')) : Room pos' t' := by
  cases take_cases htake with
  | region hroom => exact ⟨h.cent_le, fun _ => Nat.not_le.mp hroom, h.conf_zero⟩
  | name => exact h.goto fun _ => trivial
  | brace => exact h.update trivial _
  | item => exact h.goto fun _ => trivial
  | endRegion => exact ⟨h.cent_lt trivial, nofun, h.conf_zero⟩
  | leaveRegion => exact h.goto nofun
  | sync => exact h.goto nofun
  | syncBrace => exact h.goto nofun
  | type => exact h.goto nofun
  | endSync => exact h.goto nofun
  | leaveSync => exact h.goto nofun
  | equ => exact h.goto id
  | value => exact h.update rfl _
  | typeValue => exact ⟨h.cent_le, nofun, h.conf_zero⟩

/-- The last element of the array keeps its empty name. -/
theorem readconf_room {signed : Bool} {content buf : List UInt8} {t : Tables}
    (h : readconf signed (some content) buf = pure t) : Room .top t := by
  obtain ⟨ws, y, hy, hcases⟩ := (@readconf_fate signed content buf).run
  have hroom : Room y.pos y.tables := by
    refine @Machine.exec_invariant _ _ _ _ _ _ (fun x => Room x.pos x.tables) ?_ ?_ hy
    · intro x w z hx hz
      exact hx.take (advance_iff.mp hz).2
    · exact ⟨Nat.zero_le _, nofun, fun _ _ => rfl⟩
  rcases hcases with ⟨_, hr | hr⟩ | ⟨_, _, f, hr⟩
  · rw [hr] at h
    cases h
    exact ⟨hroom.cent_le, nofun, hroom.conf_zero⟩
  · rw [hr] at h
    cases h
  · rw [hr] at h
    cases h

/-! ## What is compiled, and what is tried -/

section Matching
variable {P : Posix} {t : Tables} {m : Matcher} {name : List UInt8} {w : Wanted} {i k n : Nat}

theorem compile_eq (n : Nat) : ∃ c_preg, compile P t n = pure c_preg ∧
    ∀ i, c_preg i =
      if i < n ∧ P.regcomp (t.conf i).c_pattern = 0 then some (t.conf i).c_pattern else none := by
  induction n with
  | zero => exact ⟨fun _ => none, rfl, fun i => (if_neg nofun).symm⟩
  | succ n ih =>
    obtain ⟨c_preg, hrun, hpreg⟩ := ih
    refine ⟨Function.update c_preg n
      (if P.regcomp (t.conf n).c_pattern = 0 then some (t.conf n).c_pattern else none), ?_, ?_⟩
    · unfold compile
      rw [hrun, pure_bind]
      exact if_neg (Int.not_lt.mpr (P.regcomp_nonneg _))
    · intro i
      by_cases hi : i = n
      · subst hi
        simp
      · have hlt : i < n + 1 ↔ i < n := by omega
        rw [Function.update_of_ne hi, hpreg]
        simp only [hlt]

theorem regex_init_eq {signed : Bool} {content buf : List UInt8}
    (h : regex_init P signed (some content) buf = some (.ok m)) :
    readconf signed (some content) buf = pure m.tables ∧ ∀ i, m.c_preg i =
      if i < m.tables.cent ∧ P.regcomp (m.tables.conf i).c_pattern = 0 then
        some (m.tables.conf i).c_pattern
      else none := by
  unfold regex_init at h
  cases hread : readconf signed (some content) buf with
  | none =>
    rw [hread] at h
    cases h
  | some r =>
    rw [hread] at h
    cases r with
    | error f => cases h
    | ok t =>
      obtain ⟨c_preg, hrun, hpreg⟩ := @compile_eq P t t.cent
      simp only [hrun] at h
      cases h
      exact ⟨rfl, hpreg⟩

/-- The regions before `i` have been tried in vain. -/
def Tried (P : Posix) (m : Matcher) (name : List UInt8) (i : Nat) : Prop :=
  ∀ j < i, ¬ (m.tables.conf j).unnamed ∧ ¬ Matches P m.tables name j ∧ (m.c_preg j).isSome

theorem Tried.succ (h : Tried P m name i) (hname : ¬ (m.tables.conf i).unnamed)
    (hno : ¬ Matches P m.tables name i) (hpreg : (m.c_preg i).isSome) : Tried P m name (i + 1) := by
  intro j hj
  rcases Nat.lt_succ_iff_lt_or_eq.mp hj with hj | rfl
  · exact h j hj
  · exact ⟨hname, hno, hpreg⟩

/-- How the loop ends, and at which region. -/
inductive Stops (P : Posix) (m : Matcher) (name : List UInt8) (w : Wanted) : Option Answer → Prop where
  | refused {j : Nat} (ht : Tried P m name j) (hname : ¬ (m.tables.conf j).unnamed)
      (hpreg : (m.c_preg j).isSome = false) : Stops P m name w none
  | ended {j : Nat} (ht : Tried P m name j) (hname : (m.tables.conf j).unnamed) :
      Stops P m name w (some unmatched)
  | found {j : Nat} (ht : Tried P m name j) (hname : ¬ (m.tables.conf j).unnamed)
      (hpreg : (m.c_preg j).isSome) (hm : Matches P m.tables name j) :
      Stops P m name w (some (matched w (m.tables.conf j) name
        (P.regexec (m.tables.conf j).c_pattern name).2))

theorem tryRegions_stops
    (hcomp : ∀ i, m.c_preg i =
      if i < m.tables.cent ∧ P.regcomp (m.tables.conf i).c_pattern = 0 then
        some (m.tables.conf i).c_pattern
      else none)
    (hend : (m.tables.conf maxConf).unnamed) (hk : i + k = maxConf + 1) (ht : Tried P m name i) :
    Stops P m name w (tryRegions P m name w k i) := by
  induction k generalizing i with
  | zero => exact absurd hend (ht maxConf (by omega)).1
  | succ k ih =>
    unfold tryRegions
    by_cases hname : (m.tables.conf i).unnamed
    · rw [if_pos hname]
      exact .ended ht hname
    · rw [if_neg hname]
      have hi := hcomp i
      by_cases hgood : i < m.tables.cent ∧ P.regcomp (m.tables.conf i).c_pattern = 0
      · rw [if_pos hgood] at hi
        have hpreg : (m.c_preg i).isSome := by
          rw [hi]
          rfl
        simp only [hi, if_neg (Int.not_lt.mpr (P.regexec_nonneg (m.tables.conf i).c_pattern name))]
        by_cases hmatch : (P.regexec (m.tables.conf i).c_pattern name).1 = 0
        · rw [if_pos hmatch]
          exact .found ht hname hpreg ⟨hgood.2, hmatch⟩
        · rw [if_neg hmatch]
          exact ih (by omega) (ht.succ hname (fun h => hmatch h.2) hpreg)
      · rw [if_neg hgood] at hi
        simp only [hi]
        exact .refused ht hname (by rw [hi]; rfl)

/-- A region of the file that is named and has a good pattern is no obstacle. -/
theorem guarded_of_entries {es : List Entry}
    (hes : ∀ x ∈ es.filterMap Entry.conf, ¬ x.unnamed ∧ P.regcomp x.c_pattern = 0) :
    Guarded P (.ofEntries es) name := by
  intro i _
  by_cases hi : i < (es.filterMap Entry.conf).length
  · have hconf : (Tables.ofEntries es).conf i = (es.filterMap Entry.conf)[i] := by
      simp only [Tables.ofEntries, List.getElem?_eq_getElem hi]
      rfl
    obtain ⟨hname, hgood⟩ := hes _ (List.getElem_mem hi)
    rw [← hconf] at hname hgood
    rw [if_neg hname]
    exact ⟨hi, hgood⟩
  · have hconf : (Tables.ofEntries es).conf i = .zero := by
      simp only [Tables.ofEntries, List.getElem?_eq_none (Nat.not_lt.mp hi)]
      rfl
    rw [if_pos (by rw [hconf]; rfl)]
    intro k hik hk
    exact absurd (hik.trans_lt hk) hi

end Matching

theorem regex_match_first_iff {P : Posix} {signed : Bool} {content buf : List UInt8} {m : Matcher}
    (h : regex_init P signed (some content) buf = some (.ok m)) (name : List UInt8) (w : Wanted) :
    FirstWins P m name w ↔ Guarded P m.tables name := by
  obtain ⟨hread, hcomp⟩ := regex_init_eq h
  have hgood : ∀ j, (m.c_preg j).isSome →
      j < m.tables.cent ∧ P.regcomp (m.tables.conf j).c_pattern = 0 := by
    intro j hj
    by_contra hno
    rw [hcomp, if_neg hno] at hj
    cases hj
  have hend : (m.tables.conf maxConf).unnamed := by
    rw [(readconf_room hread).conf_zero _ le_rfl]
    rfl
  have hstops : Stops P m name w (regex_match P m name w) :=
    tryRegions_stops hcomp hend (Nat.zero_add _) nofun
  unfold FirstWins
  generalize regex_match P m name w = r at hstops
  cases hstops with
  | @refused j ht hname hpreg =>
    refine iff_of_false ?_ ?_
    · rintro (⟨_, _, _, _, hr⟩ | ⟨_, hr⟩) <;> cases hr
    · intro hguard
      have hj := hguard j fun l hl => ⟨(ht l hl).1, (ht l hl).2.1⟩
      rw [if_neg hname] at hj
      rw [hcomp, if_pos hj] at hpreg
      cases hpreg
  | @ended j ht hname =>
    constructor
    · rintro (⟨_, _, _, _, hr⟩ | ⟨hnone, _⟩)
      · cases congrArg Answer.ret (Option.some.inj hr)
      · intro i hpassed
        by_cases hi : (m.tables.conf i).unnamed
        · rw [if_pos hi]
          exact fun k _ hk => hnone k hk
        · rw [if_neg hi]
          rcases Nat.lt_trichotomy i j with hlt | rfl | hlt
          · exact hgood i (ht i hlt).2.2
          · exact absurd hname hi
          · exact absurd hname (hpassed j hlt).1
    · intro hguard
      right
      refine ⟨?_, rfl⟩
      have hj := hguard j fun l hl => ⟨(ht l hl).1, (ht l hl).2.1⟩
      rw [if_pos hname] at hj
      intro i hi
      rcases Nat.lt_or_ge i j with hlt | hle
      · exact (ht i hlt).2.1
      · exact hj i hle hi
  | @found j ht hname hpreg hm =>
    refine iff_of_true (.inl ⟨j, (hgood j hpreg).1, hm, fun l hl => (ht l hl).2.1, rfl⟩) ?_
    intro i hpassed
    rcases Nat.lt_trichotomy i j with hlt | rfl | hlt
    · rw [if_neg (ht i hlt).1]
      exact hgood i (ht i hlt).2.2
    · rw [if_neg hname]
      exact hgood i hpreg
    · exact absurd hm (hpassed j hlt).2

/-! ## Words as patterns -/

/-- Where the text first occurs. -/
def offset (p : List UInt8) : List UInt8 → Option Nat
  | [] => if p = [] then some 0 else none
  | c :: name => if p.isPrefixOf (c :: name) then some 0 else (offset p name).map (· + 1)

/-- An open bracket is the error 2, a bad pattern. -/
def wordComp (p : List UInt8) : Int := if p.all isWord then 0 else 2

def wordExec (p name : List UInt8) : Int × (Nat → Int × Int) :=
  match offset p name with
  | some k => (0, fun i => if i = 0 then (k, k + p.length) else (-1, -1))
  | none => (1, fun _ => (-1, -1))

theorem wordComp_nonneg (p : List UInt8) : 0 ≤ wordComp p := by
  unfold wordComp
  split <;> decide

theorem wordExec_nonneg (p name : List UInt8) : 0 ≤ (wordExec p name).1 := by
  unfold wordExec
  split
  · exact le_rfl
  · exact Int.one_nonneg

def words : Posix := ⟨wordComp, wordExec, wordComp_nonneg, wordExec_nonneg⟩

def twoRegions : List UInt8 :=
  ascii "region a\x7bpattern=nc type=\"$0\"\x7d region b\x7bpattern=dat type=\"$0\"\x7d"

/-- The first region does not match, and the fields are those of the second one. -/
theorem regex_match_first_iff_words : ∃ m,
    regex_init words true (some twoRegions) [] = some (.ok m) ∧ m.tables.cent = 2 ∧
    (regex_match words m (ascii "x.dat") ⟨false, true, false, false⟩).map Answer.type =
      some (some (ascii "dat")) ∧
    FirstWins words m (ascii "x.dat") ⟨false, true, false, false⟩ := by
  have heval : (Option.any (fun x => x.toOption.any fun m => m.tables.cent = 2 ∧
      (regex_match words m (ascii "x.dat") ⟨false, true, false, false⟩).map Answer.type =
        some (some (ascii "dat")) ∧
      (¬ (m.tables.conf 0).unnamed ∧ words.regcomp (m.tables.conf 0).c_pattern = 0) ∧
      (¬ (m.tables.conf 1).unnamed ∧ words.regcomp (m.tables.conf 1).c_pattern = 0) ∧
      (words.regexec (m.tables.conf 1).c_pattern (ascii "x.dat")).1 = 0)
      (regex_init words true (some twoRegions) [])) = true := by decide +kernel
  obtain ⟨m, hm, hstored⟩ := exists_of_any heval
  obtain ⟨hcent, hanswer, hfirst, hsecond, hmatch⟩ := of_decide_eq_true hstored
  refine ⟨m, hm, hcent, hanswer, (regex_match_first_iff hm _ _).mpr fun i htried => ?_⟩
  rcases i with _ | _ | i
  · rw [if_neg hfirst.1, hcent]
    exact ⟨Nat.succ_pos 1, hfirst.2⟩
  · rw [if_neg hsecond.1, hcent]
    exact ⟨Nat.one_lt_two, hsecond.2⟩
  · exact absurd ⟨hsecond.2, hmatch⟩ (htried 1 (Nat.lt_add_of_pos_left (Nat.succ_pos i))).2

/-- The pattern does not compile, but its region is tried. -/
theorem bracket_executed : ∃ m, regex_init words true
      (some (ascii "region a\x7bpattern=\"[\"\x7d")) [] = some (.ok m) ∧
    words.regcomp (m.tables.conf 0).c_pattern = 2 ∧
    ¬ FirstWins words m (ascii "x.dat") ⟨true, true, true, true⟩ := by
  have heval : (Option.any (fun x => x.toOption.any fun m =>
      words.regcomp (m.tables.conf 0).c_pattern = 2 ∧
        (regex_match words m (ascii "x.dat") ⟨true, true, true, true⟩).isNone)
      (regex_init words true (some (ascii "region a\x7bpattern=\"[\"\x7d")) [])) = true := by
    decide +kernel
  obtain ⟨m, hm, hstored⟩ := exists_of_any heval
  obtain ⟨hcode, hnone⟩ := of_decide_eq_true hstored
  refine ⟨m, hm, hcode, ?_⟩
  rw [Option.isNone_iff_eq_none] at hnone
  rintro (⟨_, _, _, _, hr⟩ | ⟨_, hr⟩)
  · rw [hnone] at hr
    cases hr
  · rw [hnone] at hr
    cases hr

end JitDt.Regexplib
