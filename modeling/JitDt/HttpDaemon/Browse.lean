import JitDt.Lib.PathName

/-!
# The pages of http_daemon

`browsefile` opens what the URL names below the root directory, and a second time with the name of
the index page behind it if that was a directory. What `open` and `fstat` find is a parameter. The
descriptor of a page is closed by libmicrohttpd, the others by nobody but the second try.
-/

namespace JitDt.HttpDaemon

set_option autoImplicit false

open PathName

/-- What `open` and `fstat` make of a path. -/
inductive Found where
  | missing
  | noStat
  | dir
  | reg
  | other
deriving DecidableEq

def rootPath : List UInt8 := [dot, slash]

/-- `index.html` -/
def indexPage : List UInt8 := [105, 110, 100, 101, 120, 46, 104, 116, 109, 108]

/-- The file of the response, none for the error page, and the descriptors that stay open. -/
structure Answer where
  page : Option (List UInt8)
  left : List (List UInt8)

def answer (found : Found) (path : List UInt8) : Answer :=
  match found with
  | .missing => ⟨none, []⟩
  | .reg => ⟨some path, []⟩
  | .noStat | .dir | .other => ⟨none, [path]⟩

/-- The code from `retry` on, as long as it may go into `tries` directories. -/
def retry (disk : List UInt8 → Found) : Nat → List UInt8 → Answer
  | 0, path => answer (disk path) path
  | tries + 1, path =>
    match disk path with
    | .dir => retry disk tries (path ++ dot :: slash :: indexPage)
    | found => answer found path

def browsefile (disk : List UInt8 → Found) (url : List UInt8) : Answer :=
  retry disk 1 (rootPath ++ url)

/-- Two spellings of a directory lead to one place, with the same entries. -/
structure Tree (disk : List UInt8 → Found) : Prop where
  entry : ∀ {p q name}, SameFile (p ++ [slash]) (q ++ [slash]) → slash ∉ name → isName name = true →
    disk (p ++ slash :: name) = disk (q ++ slash :: name)

variable {disk : List UInt8 → Found} {p url : List UInt8}

/-! ## The index page -/

theorem slash_not_mem_indexPage : slash ∉ indexPage := by decide

theorem isName_indexPage : isName indexPage = true := by decide

/-- Where `browsefile` looks for the index page of a directory is in it only behind a slash. -/
theorem sameFile_index_iff (hp : p ≠ []) :
    SameFile (p ++ dot :: slash :: indexPage) (p ++ slash :: indexPage) ↔ EndsSlash p := by
  have hhead : ∀ q, (p ++ q).head? = p.head? := by
    intro q
    rw [List.head?_append_of_ne_nil _ hp]
  rw [← parts_append_dot_iff hp]
  unfold SameFile
  rw [hhead, hhead, show p ++ dot :: slash :: indexPage = (p ++ [dot]) ++ slash :: indexPage by simp,
    parts_append_slash, parts_append_slash, List.append_left_inj]
  simp

theorem browsefile_dir (hdir : disk (rootPath ++ url) = .dir) :
    browsefile disk url = answer (disk (rootPath ++ url ++ dot :: slash :: indexPage))
      (rootPath ++ url ++ dot :: slash :: indexPage) := by
  unfold browsefile retry
  rw [hdir]
  rfl

theorem answer_page_iff {found : Found} {q : List UInt8} :
    (answer found p).page = some q ↔ found = .reg ∧ p = q := by
  cases found <;> simp [answer]

/-- A directory is answered by its index page exactly if it has one and the URL ends in a slash. -/
theorem browsefile_index_iff (htree : Tree disk) (hdir : disk (rootPath ++ url) = .dir) :
    (∃ q, (browsefile disk url).page = some q ∧ SameFile q (rootPath ++ url ++ slash :: indexPage)) ↔
      EndsSlash (rootPath ++ url) ∧ disk (rootPath ++ url ++ slash :: indexPage) = .reg := by
  have hne : rootPath ++ url ≠ [] := by simp [rootPath]
  have hpath : rootPath ++ url ++ dot :: slash :: indexPage =
      (rootPath ++ url ++ [dot]) ++ slash :: indexPage := by simp
  have hdisk : EndsSlash (rootPath ++ url) →
      disk (rootPath ++ url ++ dot :: slash :: indexPage) =
        disk (rootPath ++ url ++ slash :: indexPage) := by
    intro hslash
    rw [hpath]
    refine htree.entry ⟨by simp [rootPath], ?_⟩ slash_not_mem_indexPage isName_indexPage
    rw [parts_concat_slash, parts_concat_slash, (parts_append_dot_iff hne).mpr hslash]
  rw [browsefile_dir hdir]
  constructor
  · rintro ⟨q, hq, hsame⟩
    obtain ⟨hreg, rfl⟩ := answer_page_iff.mp hq
    have hslash := (sameFile_index_iff hne).mp hsame
    exact ⟨hslash, (hdisk hslash).symm.trans hreg⟩
  · rintro ⟨hslash, hreg⟩
    exact ⟨_, answer_page_iff.mpr ⟨(hdisk hslash).trans hreg, rfl⟩, (sameFile_index_iff hne).mpr hslash⟩

/-- A directory `a` below the root, with an index page. -/
def site (p : List UInt8) : Found :=
  if p.head? = some slash then .missing
  else if parts p = [] ∨ parts p = [[97]] then .dir
  else if parts p = [[97], indexPage] then .reg
  else .missing

theorem tree_site : Tree site where
  entry := by
    intro p q name hsame _ _
    have hhead : ∀ r, (r ++ slash :: name).head? = (r ++ [slash]).head? := by
      intro r
      cases r <;> rfl
    have hparts : parts (p ++ slash :: name) = parts (q ++ slash :: name) := by
      rw [parts_append_slash, parts_append_slash, ← parts_concat_slash p, hsame.2, parts_concat_slash]
    unfold site
    rw [hhead, hhead, hparts]
    by_cases hroot : (q ++ [slash]).head? = some slash
    · rw [if_pos hroot, if_pos (hsame.1.mpr hroot)]
    · rw [if_neg hroot, if_neg (mt hsame.1.mp hroot)]

/-- `/a/` is answered by the index page, `/a` is not. -/
theorem browsefile_index_iff_site :
    (∃ q, (browsefile site [slash, 97, slash]).page = some q ∧
      SameFile q (rootPath ++ [slash, 97, slash] ++ slash :: indexPage)) ∧
    ¬ ∃ q, (browsefile site [slash, 97]).page = some q ∧
      SameFile q (rootPath ++ [slash, 97] ++ slash :: indexPage) := by
  constructor
  · exact (browsefile_index_iff tree_site (by decide)).mpr (by decide)
  · rw [browsefile_index_iff tree_site (by decide)]
    decide

/-! ## The descriptors -/

theorem answer_left_iff {found : Found} :
    (answer found p).left = [] ↔ (answer found p).page ≠ none ∨ found = .missing := by
  cases found <;> simp [answer]

/-- No descriptor stays open exactly if there is a page or `open` has failed. -/
theorem browsefile_left_iff : (browsefile disk url).left = [] ↔
    (browsefile disk url).page ≠ none ∨ disk (rootPath ++ url) = .missing ∨
      disk (rootPath ++ url) = .dir ∧
        disk (rootPath ++ url ++ dot :: slash :: indexPage) = .missing := by
  by_cases hdir : disk (rootPath ++ url) = .dir
  · rw [browsefile_dir hdir, answer_left_iff]
    simp [hdir]
  · have hanswer : browsefile disk url = answer (disk (rootPath ++ url)) (rootPath ++ url) := by
      unfold browsefile retry
      split
      · exact absurd ‹_› hdir
      · rfl
    rw [hanswer, answer_left_iff]
    simp [hdir]

end JitDt.HttpDaemon
