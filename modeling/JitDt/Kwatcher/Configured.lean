import JitDt.Kwatcher.Delivered
import JitDt.Lwatcher.Configured
import JitDt.Translib.Bells

/-!
# From watch_and_transfer to the clients of kwatcher

The names in the bells are those that `mkhist` gets, and `mkhist` reads them with the tables of a
configuration file. So the lists that clients obtain are made of files that were put before: for
each date one file of each type, under the name that the configuration gives it.
-/

namespace JitDt.Kwatcher

set_option autoImplicit false

open Machine Regexplib
open Misclib (Path fnameMax ull)
open Lwatcher (synctypes nul_not_mem_cstrOf)

/-- What `mkhist` makes of the answers of `regex_match`. A name that does not fit the buffers is left
out. -/
def configWith (regex_match : List UInt8 → Option Answer) (types : List CStr) : Config where
  regex_match := fun path =>
    match regex_match path.bytes with
    | some ⟨_, some date, some type, some fnam, _⟩ =>
      if date.length < bufSize ∧ type.length < bufSize ∧ fnam.length < bufSize then
        some (⟨cstrOf date, nul_not_mem_cstrOf date⟩, ⟨cstrOf type, nul_not_mem_cstrOf type⟩,
          ⟨cstrOf fnam, nul_not_mem_cstrOf fnam⟩)
      else none
    | _ => none
  synctype := types

/-- With the tables of `regex_init`. -/
def configOf (P : Posix) (m : Matcher) : Config :=
  configWith (fun name => Regexplib.regex_match P m name ⟨true, true, true, false⟩)
    (synctypes m.tables)

/-- With a configuration as it is meant. -/
def configured (P : Posix) (cfg : Configuration) : Config :=
  configWith (fun name => some (answerOf P cfg.regions name ⟨true, true, true, false⟩))
    (synctypes (.ofLists cfg.regions cfg.types))

/-- The configuration gives the name `path` the date `d`, the type number `tp` and the name
`fnam`. -/
def Renamed (P : Posix) (cfg : Configuration) (path : List UInt8) (d tp : Nat) (fnam : Path) :
    Prop :=
  (∃ date : CStr, ∃ type : Text, cfg.types[tp]? = some type ∧
    cfg.Gives P path date.bytes type.bytes ∧ ull (atoll date) = d) ∧
  cfg.Renames P path fnam.bytes

/-- The name that `transfer` has read from a bell for this event. -/
def Event.path : Event → Option Path
  | .arrive l => some l.path
  | _ => none

section Arrivals
variable {P : Posix} {cfg : Configuration} {m : Matcher} {kcfg : Config} {s t : System}
variable {es : List Event} {e : Event} {l : Label}

theorem arrival_some {a : Arrival} (h : kcfg.arrival l = some a) : ∃ date type fnam,
    kcfg.regex_match l.path = some (date, type, fnam) ∧
      kcfg.synctype[a.entpoint.val]? = some type ∧ a.date = ull (atoll date) ∧ a.fnam = fnam := by
  unfold Config.arrival at h
  split at h
  · cases h
  · rename_i date type fnam hmatch
    split at h
    · cases h
    · rename_i e hentry
      split at h
      · split at h
        · obtain rfl := Option.some.inj h
          refine ⟨date, type, fnam, hmatch, ?_, rfl, rfl⟩
          exact List.getElem?_eq_some_iff.mpr ⟨e.isLt, (List.finIdxOf?_eq_some_iff.mp hentry).1⟩
        · cases h
      · cases h

theorem configOf_eq (htables : m.tables = .ofLists cfg.regions cfg.types)
    (hmeaning : ∀ name w, Regexplib.regex_match P m name w = some (answerOf P cfg.regions name w)) :
    configOf P m = configured P cfg := by
  unfold configOf configured
  simp only [hmeaning, htables]

theorem configured_match (hsound : P.Sound) {path date type fnam : CStr}
    (h : (configured P cfg).regex_match path = some (date, type, fnam)) :
    cfg.Gives P path.bytes date.bytes type.bytes ∧ cfg.Renames P path.bytes fnam.bytes := by
  unfold configured configWith at h
  simp only at h
  split at h
  · rename_i ret date' type' fnam' thrh hans
    split at h
    · have hgives : cfg.Gives P path.bytes date' type' :=
        answerOf_gives hsound (Option.some.inj hans) rfl rfl
      have hrenames : cfg.Renames P path.bytes fnam' :=
        answerOf_renames hsound (Option.some.inj hans) rfl
      obtain ⟨hdate, htype⟩ := hgives.nul_free
      cases h
      simp only [cstrOf_eq_self hdate, cstrOf_eq_self htype, cstrOf_eq_self hrenames.nul_free]
      exact ⟨hgives, hrenames⟩
    · cases h
  · cases h

theorem arrival_renamed (hsound : P.Sound) {a : Arrival}
    (h : (configured P cfg).arrival l = some a) :
    Renamed P cfg l.path.bytes a.date a.entpoint a.fnam := by
  obtain ⟨date, type, fnam, hmatch, hget, hdate, hfnam⟩ := arrival_some h
  obtain ⟨hgives, hrenames⟩ := configured_match hsound hmatch
  obtain ⟨text, htext, hbytes⟩ := Lwatcher.synctypes_get hget
  refine ⟨⟨date, text, htext, ?_, hdate.symm⟩, ?_⟩
  · rw [hbytes]
    exact hgives
  · rw [hfnam]
    exact hrenames

theorem exec_arrived {content : Bool → List UInt8}
    (hrun : exec (System.step kcfg) (System.init content) es = some s) :
    ∀ a ∈ s.kw.arrived, ∃ l, .arrive l ∈ es ∧ kcfg.arrival l = some a := by
  induction es using List.reverseRecOn generalizing s with
  | nil =>
    obtain rfl : System.init content = s := by simpa using hrun
    intro a ha
    cases ha
  | append_singleton es e ih =>
    obtain ⟨u, hu, hstep⟩ := exec_snoc_iff.mp hrun
    have hold : ∀ a ∈ u.kw.arrived, ∃ l, .arrive l ∈ es ++ [e] ∧ kcfg.arrival l = some a := by
      intro a ha
      obtain ⟨l, hl, harr⟩ := ih hu a ha
      exact ⟨l, List.mem_append_left _ hl, harr⟩
    cases e with
    | arrive l =>
      obtain ⟨kw, hkw, rfl⟩ := step_arrive hstep
      have harr : kw.arrived = u.kw.arrived ++ (kcfg.arrival l).toList := step_arrived hkw
      intro a ha
      change a ∈ kw.arrived at ha
      rw [harr] at ha
      rcases List.mem_append.mp ha with ha | ha
      · exact hold a ha
      · exact ⟨l, by simp, Option.mem_toList.mp ha⟩
    | publish =>
      obtain ⟨_, _, _, _, _, _, rfl⟩ := step_publish hstep
      exact hold
    | lockStep l =>
      obtain ⟨_, _, _, rfl⟩ := step_lockStep hstep
      exact hold

end Arrivals

section System
variable {P : Posix} {cfg : Configuration} {content buf : List UInt8} {signed : Bool} {m : Matcher}
variable {bells : Translib.Bells.Config} {bls : List Translib.Bells.Label}
variable {b : Translib.Bells.State} {locks : Bool → List UInt8} {es : List Event} {s : System}

end System

/-! ## Two types -/

def wordText (c : UInt8) (h : isprint c) (hq : '"'.toUInt8 ≠ c) : Text where
  bytes := [c]
  printable := by simpa using h
  unquoted := by simpa using hq
  short := by simp

theorem quote_ne_a : '"'.toUInt8 ≠ 97 := by decide

theorem quote_ne_b : '"'.toUInt8 ≠ 98 := by decide

def textA : Text := wordText 97 rfl quote_ne_a

def textB : Text := wordText 98 rfl quote_ne_b

/-- Names with this text in them are of date 1, and the text is their type and their new name. -/
def wordArea (t : Text) : Area where
  name := kobe
  member := fun m =>
    if m = .pattern then some t
    else if m = .date then some Lwatcher.dateText
    else if m = .thrh then none
    else some Lwatcher.groupZero

def twoWords : Configuration where
  regions := [wordArea textA, wordArea textB]
  types := [textA, textB]
  regions_le := by decide
  types_le := by decide

def nameA : Path := ⟨textA.bytes, textA.nul_free⟩

def nameB : Path := ⟨textB.bytes, textB.nul_free⟩

/-- Both files arrive, and client 0 gets their set. -/
def oneSet : List Event :=
  [.lockStep .lock, .arrive ⟨nameA, true⟩, .arrive ⟨nameB, true⟩, .publish, .lockStep .unlock,
    .lockStep .lock, .lockStep (.clientLock 0), .lockStep (.clientRead 0 true)]

end JitDt.Kwatcher
