import JitDt.Regexplib.Copy
import JitDt.Regexplib.RoundTrip

/-!
# What a configuration says about a name

A configuration as it is meant: the first region whose pattern matches decides about a name, and its
formats make the date and the type. `regex_init` and `regex_match` say the same of every file that
holds the configuration.
-/

namespace JitDt.Regexplib

set_option autoImplicit false

section Meaning
variable (P : Posix)

/-- The first of the regions whose pattern matches. -/
def firstMatch (areas : List Area) (name : List UInt8) : Option Area :=
  areas.find? fun a => (P.regexec a.conf.c_pattern name).1 = 0

def answerOf (areas : List Area) (name : List UInt8) (w : Wanted) : Answer :=
  match firstMatch P areas name with
  | some a => matched w a.conf name (P.regexec a.conf.c_pattern name).2
  | none => unmatched

/-- The name belongs to a region, whose formats give this date and this type. -/
def Configuration.Gives (cfg : Configuration) (name date type : List UInt8) : Prop :=
  ∃ a, firstMatch P cfg.regions name = some a ∧
    Substitution name (P.regexec a.conf.c_pattern name).2 a.conf.c_date date ∧
    Substitution name (P.regexec a.conf.c_pattern name).2 a.conf.c_type type

/-- The format for the name makes this one. -/
def Configuration.Renames (cfg : Configuration) (name fnam : List UInt8) : Prop :=
  ∃ a, firstMatch P cfg.regions name = some a ∧
    Substitution name (P.regexec a.conf.c_pattern name).2 a.conf.c_fnam fnam

/-- `regcomp` accepts every pattern. -/
def Configuration.Compiles (cfg : Configuration) : Prop :=
  ∀ a ∈ cfg.regions, P.regcomp a.conf.c_pattern = 0

/-- What `regexec` reports are groups of the name, or groups that took no part. -/
def Posix.Sound : Prop :=
  ∀ p (name : CStr), (P.regexec p name.bytes).1 = 0 → ∀ i < nmatch,
    (P.regexec p name.bytes).2 i = (-1, -1) ∨
      0 ≤ ((P.regexec p name.bytes).2 i).1 ∧
      ((P.regexec p name.bytes).2 i).1 ≤ ((P.regexec p name.bytes).2 i).2 ∧
      ((P.regexec p name.bytes).2 i).2 ≤ name.bytes.length

end Meaning

section Tables
variable {P : Posix} {areas : List Area} {types : List Text} {i k : Nat}

theorem ofLists_conf {a : Area} (h : areas[i]? = some a) :
    (Tables.ofLists areas types).conf i = a.conf := by
  simp [Tables.ofLists, h]

theorem ofLists_conf_none (h : areas[i]? = none) :
    (Tables.ofLists areas types).conf i = .zero := by
  simp [Tables.ofLists, h]

theorem Area.named (a : Area) : ¬ a.conf.unnamed := by
  obtain ⟨c, hc, halpha⟩ := a.name.start
  have hhead : a.name.bytes.headD 0 = c := by
    rw [List.headD_eq_head?_getD, Option.mem_def.mp hc, Option.getD_some]
  intro hzero
  rw [Conf.unnamed, Area.conf, hhead] at hzero
  rw [hzero] at halpha
  cases halpha

theorem unnamed_zero : Conf.zero.unnamed := rfl

/-- The loop from region `i` on answers what the regions from there on say. -/
theorem tryRegions_ofLists {m : Matcher} (htables : m.tables = .ofLists areas types)
    (hpreg : ∀ j a, areas[j]? = some a → m.c_preg j = some a.conf.c_pattern)
    (hk : areas.length < i + k) (hi : i ≤ areas.length) (name : List UInt8) (w : Wanted) :
    tryRegions P m name w k i = some (answerOf P (areas.drop i) name w) := by
  induction k generalizing i with
  | zero => omega
  | succ k ih =>
    unfold tryRegions
    rw [htables]
    cases harea : areas[i]? with
    | none =>
      have hdrop : areas.drop i = [] := List.drop_eq_nil_of_le (List.getElem?_eq_none_iff.mp harea)
      rw [ofLists_conf_none harea, if_pos unnamed_zero, hdrop]
      rfl
    | some a =>
      obtain ⟨hlt, ha⟩ := List.getElem?_eq_some_iff.mp harea
      rw [ofLists_conf harea, if_neg a.named, hpreg i a harea, List.drop_eq_getElem_cons hlt, ha]
      have hcode : ¬ (P.regexec a.conf.c_pattern name).1 < 0 :=
        Int.not_lt.mpr (P.regexec_nonneg _ _)
      simp only [if_neg hcode]
      by_cases hmatch : (P.regexec a.conf.c_pattern name).1 = 0
      · rw [if_pos hmatch, answerOf, firstMatch, List.find?_cons_of_pos (by simpa using hmatch)]
      · rw [if_neg hmatch, ih (by omega) hlt, answerOf, answerOf, firstMatch, firstMatch,
          List.find?_cons_of_neg (by simpa using hmatch)]

end Tables

section Reading
variable {P : Posix} {signed : Bool} {cfg : Configuration} {content buf : List UInt8}

theorem readconf_tables (h : Prints cfg content) :
    readconf signed (some content) buf = pure (.ofLists cfg.regions cfg.types) := by
  obtain ⟨bs, hregions, htypes, hprinted⟩ := h
  have hlen := hprinted.length_le
  have hfit : ∀ b ∈ bs, b.size ≤ content.length := fun b hb => (size_le_flatMap hb).trans hlen
  obtain ⟨scan, hblocks⟩ := @blocks_printed signed ⟨⟨content, 1, buf⟩, .zero⟩ bs [] []
    content.length content.length ((length_le_flatMap bs).trans hlen) hfit
    (by rw [List.nil_append, hregions]; exact cfg.regions_le)
    (by rw [List.nil_append, htypes]; exact cfg.types_le) rfl hprinted
  rw [List.nil_append, List.nil_append, hregions, htypes] at hblocks
  unfold readconf
  simp only [hblocks, pure_bind]

theorem regex_init_tables (h : Prints cfg content) : ∃ m : Matcher,
    regex_init P signed (some content) buf = some (.ok m) ∧
      m.tables = .ofLists cfg.regions cfg.types := by
  obtain ⟨c_preg, hrun, _⟩ := @compile_eq P (.ofLists cfg.regions cfg.types) cfg.regions.length
  refine ⟨⟨_, c_preg⟩, ?_, rfl⟩
  unfold regex_init
  rw [show readconf signed (some content) buf = some (.ok (.ofLists cfg.regions cfg.types)) from
    readconf_tables h]
  simp only [show compile P (.ofLists cfg.regions cfg.types)
    (Tables.ofLists cfg.regions cfg.types).cent = .ok c_preg from hrun]
  rfl

/-- `regex_match` answers what the regions say, of every name. -/
theorem exists_matcher (hcomp : cfg.Compiles P) (h : Prints cfg content) : ∃ m : Matcher,
    regex_init P signed (some content) buf = some (.ok m) ∧
      m.tables = .ofLists cfg.regions cfg.types ∧
      ∀ name w, regex_match P m name w = some (answerOf P cfg.regions name w) := by
  obtain ⟨m, hinit, htables⟩ := @regex_init_tables P signed cfg content buf h
  refine ⟨m, hinit, htables, fun name w => ?_⟩
  have hpreg : ∀ j a, cfg.regions[j]? = some a → m.c_preg j = some a.conf.c_pattern := by
    intro j a ha
    obtain ⟨hj, hja⟩ := List.getElem?_eq_some_iff.mp ha
    rw [(regex_init_eq hinit).2, htables, ofLists_conf ha]
    exact if_pos ⟨hj, hcomp a (hja ▸ List.getElem_mem hj)⟩
  have hroom := cfg.regions_le
  exact tryRegions_ofLists htables hpreg (by omega) (Nat.zero_le _) name w

end Reading

/-! ## The texts of a match -/

section Texts
variable {P : Posix} {areas : List Area} {name fmt text : List UInt8} {pmatch : Nat → Int × Int}

theorem groupText_subset (m : Int × Int) : ∀ c ∈ groupText name m, c ∈ name := by
  intro c hc
  unfold groupText at hc
  split at hc
  · cases hc
  · exact List.mem_of_mem_drop (List.mem_of_mem_take hc)

theorem Substitution.mem (h : Substitution name pmatch fmt text) :
    ∀ c ∈ text, c ∈ name ∨ c ∈ fmt := by
  induction h with
  | nil => exact fun c hc => absurd hc List.not_mem_nil
  | char _ _ ih =>
    intro c hc
    rcases List.mem_cons.mp hc with rfl | hc
    · exact .inr List.mem_cons_self
    · exact (ih c hc).imp_right (List.mem_cons_of_mem _)
  | group _ _ ih =>
    intro c hc
    rcases List.mem_append.mp hc with hgroup | hc
    · exact .inl (groupText_subset _ c hgroup)
    · exact (ih c hc).imp_right fun hfmt => List.mem_cons_of_mem _ (List.mem_cons_of_mem _ hfmt)

theorem Text.nul_free (t : Text) : (0 : UInt8) ∉ t.bytes := by
  intro hmem
  have hprint := t.printable 0 hmem
  cases hprint

theorem Area.nul_free (a : Area) (m : Member) : (0 : UInt8) ∉ a.conf.get m := by
  rw [Area.conf_get]
  cases a.member m with
  | none => exact List.not_mem_nil
  | some t => exact t.nul_free

theorem answerOf_none (h : firstMatch P areas name = none) (w : Wanted) :
    answerOf P areas name w = unmatched := by
  rw [answerOf, h]

theorem answerOf_some {a : Area} (h : firstMatch P areas name = some a) (w : Wanted) :
    answerOf P areas name w = matched w a.conf name (P.regexec a.conf.c_pattern name).2 := by
  rw [answerOf, h]

theorem firstMatch_matches {a : Area} (h : firstMatch P areas name = some a) :
    (P.regexec a.conf.c_pattern name).1 = 0 := by
  unfold firstMatch at h
  simpa using List.find?_some h

/-- The formats of a region, as `matchedcopy` fills them in. -/
theorem matchedcopy_gives (hsound : P.Sound) {cname : CStr} {a : Area}
    (h : firstMatch P areas cname.bytes = some a) :
    matchedcopy cname.bytes (P.regexec a.conf.c_pattern cname.bytes).2 fmt = some text ↔
      Substitution cname.bytes (P.regexec a.conf.c_pattern cname.bytes).2 fmt text :=
  let m : Offsets cname := ⟨_, hsound a.conf.c_pattern cname (firstMatch_matches h)⟩
  matchedcopy_iff (m := m)

theorem answerOf_gives (hsound : P.Sound) {cfg : Configuration} {cname : CStr} {w : Wanted}
    {ans : Answer} {date type : List UInt8} (h : answerOf P cfg.regions cname.bytes w = ans)
    (hdate : ans.date = some date) (htype : ans.type = some type) :
    cfg.Gives P cname.bytes date type := by
  subst h
  cases hfirst : firstMatch P cfg.regions cname.bytes with
  | none =>
    rw [answerOf_none hfirst] at hdate
    cases hdate
  | some a =>
    rw [answerOf_some hfirst] at hdate htype
    simp only [matched, Option.ite_none_right_eq_some] at hdate htype
    exact ⟨a, hfirst, (matchedcopy_gives hsound hfirst).mp hdate.2,
      (matchedcopy_gives hsound hfirst).mp htype.2⟩

theorem answerOf_renames (hsound : P.Sound) {cfg : Configuration} {cname : CStr} {w : Wanted}
    {ans : Answer} {fnam : List UInt8} (h : answerOf P cfg.regions cname.bytes w = ans)
    (hfnam : ans.fnam = some fnam) : cfg.Renames P cname.bytes fnam := by
  subst h
  cases hfirst : firstMatch P cfg.regions cname.bytes with
  | none =>
    rw [answerOf_none hfirst] at hfnam
    cases hfnam
  | some a =>
    rw [answerOf_some hfirst] at hfnam
    simp only [matched, Option.ite_none_right_eq_some] at hfnam
    exact ⟨a, hfirst, (matchedcopy_gives hsound hfirst).mp hfnam.2⟩

theorem Configuration.Gives.answer (hsound : P.Sound) {cfg : Configuration} {cname : CStr}
    {date type : List UInt8} (h : cfg.Gives P cname.bytes date type) :
    answerOf P cfg.regions cname.bytes ⟨true, true, false, false⟩ =
      ⟨1, some date, some type, none, none⟩ := by
  obtain ⟨a, hfirst, hdate, htype⟩ := h
  rw [answerOf_some hfirst]
  unfold matched
  simp only [if_true, (matchedcopy_gives hsound hfirst).mpr hdate,
    (matchedcopy_gives hsound hfirst).mpr htype]
  rfl

theorem Configuration.Renames.nul_free {cfg : Configuration} {cname : CStr} {fnam : List UInt8}
    (h : cfg.Renames P cname.bytes fnam) : (0 : UInt8) ∉ fnam := by
  obtain ⟨a, _, hfnam⟩ := h
  intro hnul
  rcases hfnam.mem 0 hnul with hname | hfmt
  · exact cname.nul_free hname
  · exact a.nul_free .fnam hfmt

theorem Configuration.Gives.nul_free {cfg : Configuration} {cname : CStr} {date type : List UInt8}
    (h : cfg.Gives P cname.bytes date type) : (0 : UInt8) ∉ date ∧ (0 : UInt8) ∉ type := by
  obtain ⟨a, _, hdate, htype⟩ := h
  constructor
  · intro hnul
    rcases hdate.mem 0 hnul with hname | hfmt
    · exact cname.nul_free hname
    · exact a.nul_free .date hfmt
  · intro hnul
    rcases htype.mem 0 hnul with hname | hfmt
    · exact cname.nul_free hname
    · exact a.nul_free .type hfmt

end Texts

/-! ## A file says what the configuration says -/

/-- Every file with the configuration is accepted, whatever its layout, and of every name
`regex_match` then tells the date and the type that the configuration gives it, and refuses the
name if no pattern matches. -/
theorem regex_match_meaning {P : Posix} (hsound : P.Sound) {cfg : Configuration}
    (hcomp : cfg.Compiles P) {content : List UInt8} (h : Prints cfg content) (signed : Bool)
    (buf : List UInt8) : ∃ m : Matcher, regex_init P signed (some content) buf = some (.ok m) ∧
      ∀ name : CStr,
        (∀ date type, regex_match P m name.bytes ⟨true, true, false, false⟩ =
          some ⟨1, some date, some type, none, none⟩ ↔ cfg.Gives P name.bytes date type) ∧
        (regex_match P m name.bytes ⟨true, true, false, false⟩ = some unmatched ↔
          ∀ a ∈ cfg.regions, (P.regexec a.conf.c_pattern name.bytes).1 ≠ 0) := by
  obtain ⟨m, hinit, _, hmeaning⟩ := @exists_matcher P signed cfg content buf hcomp h
  refine ⟨m, hinit, fun name => ⟨fun date type => ?_, ?_⟩⟩
  · rw [hmeaning, Option.some_inj]
    exact ⟨fun hans => answerOf_gives hsound hans rfl rfl, fun hgives => hgives.answer hsound⟩
  · rw [hmeaning, Option.some_inj]
    cases hfirst : firstMatch P cfg.regions name.bytes with
    | none =>
      refine iff_of_true (answerOf_none hfirst _) ?_
      unfold firstMatch at hfirst
      simpa using hfirst
    | some a =>
      rw [answerOf_some hfirst]
      refine iff_of_false (fun heq => by cases congrArg Answer.ret heq) ?_
      intro hall
      exact hall a (List.mem_of_find?_eq_some hfirst) (firstMatch_matches hfirst)

theorem offset_le {p name : List UInt8} {k : Nat} (h : offset p name = some k) :
    k + p.length ≤ name.length := by
  induction name generalizing k with
  | nil =>
    unfold offset at h
    split at h
    · rename_i hp
      cases h
      rw [hp]
      rfl
    · cases h
  | cons c name ih =>
    unfold offset at h
    split at h
    · rename_i hprefix
      cases h
      rw [Nat.zero_add]
      exact (List.isPrefixOf_iff_prefix.mp hprefix).length_le
    · obtain ⟨j, hj, rfl⟩ := Option.map_eq_some_iff.mp h
      have hle := ih hj
      rw [List.length_cons]
      omega

theorem words_sound : words.Sound := by
  intro p name hzero i _
  change (wordExec p name.bytes).1 = 0 at hzero
  change (wordExec p name.bytes).2 i = (-1, -1) ∨ 0 ≤ ((wordExec p name.bytes).2 i).1 ∧
    ((wordExec p name.bytes).2 i).1 ≤ ((wordExec p name.bytes).2 i).2 ∧
    ((wordExec p name.bytes).2 i).2 ≤ name.bytes.length
  unfold wordExec at hzero ⊢
  cases hoff : offset p name.bytes with
  | none =>
    rw [hoff] at hzero
    cases hzero
  | some k =>
    have hle := offset_le hoff
    by_cases hi : i = 0
    · subst hi
      refine .inr ⟨Int.natCast_nonneg k, ?_, ?_⟩
      · change (k : Int) ≤ k + p.length
        omega
      · change (k : Int) + p.length ≤ name.bytes.length
        omega
    · exact .inl (if_neg hi)

theorem regex_match_meaning_small : ∃ m : Matcher,
    regex_init words true (some smallFile) [] = some (.ok m) ∧
      ∀ name : CStr,
        (∀ date type, regex_match words m name.bytes ⟨true, true, false, false⟩ =
          some ⟨1, some date, some type, none, none⟩ ↔
            smallConfiguration.Gives words name.bytes date type) ∧
        (regex_match words m name.bytes ⟨true, true, false, false⟩ = some unmatched ↔
          ∀ a ∈ smallConfiguration.regions,
            (words.regexec a.conf.c_pattern name.bytes).1 ≠ 0) := by
  refine regex_match_meaning words_sound ?_ smallFile_printed true []
  intro a ha
  rw [List.mem_singleton.mp ha]
  rfl

end JitDt.Regexplib
