import JitDt.Lwatcher.Delivered
import JitDt.Lwatcher.TypeIndex
import JitDt.Regexplib.Configured

/-!
# From the configuration file to the client

The watching thread with the tables that `regex_init` has made of a configuration: the files that
the client gets of a set are of its date, and each of the type that the configuration has in its
place.
-/

namespace JitDt.Lwatcher

set_option autoImplicit false

open Misclib Jitcclient Machine Regexplib

/-- The watching thread with the compiled regions. A name whose date or type does not fit its buffer
is left out. -/
def watchOf (P : Posix) (m : Matcher) (indir : List UInt8) : Watch where
  indir := indir
  regex_match := fun name =>
    match Regexplib.regex_match P m name ⟨true, true, false, false⟩ with
    | some ⟨_, some date, some type, _, _⟩ =>
      if date.length < bufSize ∧ type.length < bufSize then
        some (⟨cstrOf date, nul_not_mem_cstrOf date⟩, ⟨cstrOf type, nul_not_mem_cstrOf type⟩)
      else none
    | _ => none

/-- The configuration gives the name this date and its type number `tp`. -/
def Classified (P : Posix) (cfg : Configuration) (name : List UInt8) (dt : Int64) (tp : Nat) :
    Prop :=
  ∃ date : CStr, ∃ type : Text, cfg.types[tp]? = some type ∧
    cfg.Gives P name date.bytes type.bytes ∧ Kwatcher.atoll date = dt

section Watching
variable {P : Posix} {cfg : Configuration} {m : Matcher} {indir : List UInt8}

theorem fname_nul_free (w : Watch) (fpath : Path) : (0 : UInt8) ∉ w.fname fpath := by
  intro hmem
  have hdrop := List.mem_of_mem_take hmem
  have hpath := (List.dropWhile_sublist _).mem hdrop
  exact fpath.nul_free (List.mem_of_mem_drop hpath)

theorem synctypes_get {tp : Nat} {type : CStr}
    (h : (synctypes (.ofLists cfg.regions cfg.types))[tp]? = some type) :
    ∃ t, cfg.types[tp]? = some t ∧ t.bytes = type.bytes := by
  unfold synctypes at h
  rw [List.getElem?_map] at h
  obtain ⟨i, hi, htype⟩ := Option.map_eq_some_iff.mp h
  obtain ⟨hlt, rfl⟩ : tp < cfg.types.length ∧ tp = i := by
    obtain ⟨hlt, hget⟩ := List.getElem?_eq_some_iff.mp hi
    rw [List.getElem_range] at hget
    exact ⟨by simpa [Tables.ofLists] using hlt, hget⟩
  refine ⟨cfg.types[tp], List.getElem?_eq_getElem hlt, ?_⟩
  rw [← htype]
  simp [Tables.ofLists, hlt, cstrOf_eq_self (Text.nul_free _)]

/-- A file that the watching thread hands on is classified so by the configuration. -/
theorem watcher_classified (hsound : P.Sound) (htables : m.tables = .ofLists cfg.regions cfg.types)
    (hmeaning : ∀ name w, Regexplib.regex_match P m name w = some (answerOf P cfg.regions name w))
    {path p : Path} {dt : Int64} {tent : Int}
    (h : (watchOf P m indir).watcher (synctypes m.tables) path = some (.histput p dt tent)) :
    p = path ∧ ∃ tp : Nat, tent = tp ∧
      Classified P cfg ((watchOf P m indir).fname path) dt tp := by
  let name : CStr := ⟨(watchOf P m indir).fname path, fname_nul_free _ path⟩
  unfold Watch.watcher at h
  cases hmatch : (watchOf P m indir).regex_match ((watchOf P m indir).fname path) with
  | none =>
    rw [hmatch] at h
    cases h
  | some r =>
    rw [hmatch] at h
    obtain ⟨tp, htp, hlabel⟩ := Option.map_eq_some_iff.mp h
    cases hlabel
    refine ⟨rfl, tp, rfl, ?_⟩
    simp only [watchOf, hmeaning] at hmatch
    split at hmatch
    · rename_i ret date type fnam thrh hans
      split at hmatch
      · cases hmatch
        have hgives : cfg.Gives P name.bytes date type :=
          answerOf_gives hsound (Option.some.inj hans) rfl rfl
        obtain ⟨hdate, htype⟩ := hgives.nul_free
        obtain ⟨hlt, hget, _⟩ := List.idxOf?_eq_some_iff.mp htp
        have htype' := List.getElem?_eq_some_iff.mpr ⟨hlt, hget⟩
        rw [htables] at htype'
        obtain ⟨t, ht, hbytes⟩ := synctypes_get htype'
        refine ⟨_, t, ht, ?_, rfl⟩
        rw [hbytes]
        simp only [cstrOf_eq_self hdate, cstrOf_eq_self htype]
        exact hgives
      · cases hmatch
    · cases hmatch

end Watching

def oneText : Text where
  bytes := [120]
  printable := List.all_eq_true.mp rfl
  unquoted := by decide
  short := by decide

def dateText : Text where
  bytes := [49]
  printable := List.all_eq_true.mp rfl
  unquoted := by decide
  short := by decide

def groupZero : Text where
  bytes := ascii "$0"
  printable := List.all_eq_true.mp rfl
  unquoted := by decide
  short := by decide

/-- Names with an `x` in them are of date 1 and of the type `x`. -/
def oneType : Configuration where
  regions := [⟨kobe, fun m =>
    if m = .pattern then some oneText
    else if m = .date then some dateText
    else if m = .type then some groupZero
    else none⟩]
  types := [oneText]
  regions_le := by decide
  types_le := by decide

def fileX : Path := ⟨oneText.bytes, oneText.nul_free⟩

/-- The client asks for the only file. -/
def oneFileRead : List Label :=
  [.histput fileX 1 0, .accept 3, .command .get (request .get (fun _ => 4) (1 : Nat)).opt,
    .histget, .test]

end JitDt.Lwatcher
