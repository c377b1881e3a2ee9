import JitDt.Lib.PathName

/-!
# Where kwatcher and its clients look

kwatcher appends a slash to its data directory where one is missing. A client passes the
directory on as it was given, and `locked_lock` takes the text behind the last slash for
a file name. Both build the name of a data file by plain concatenation.
-/

namespace JitDt.Lockfile

set_option autoImplicit false

open PathName

/-- `JITDT-READY-1` and `JITDT-READY-2`, in the order of `ticktack`. -/
def lockfname (ticktack : Bool) : List UInt8 :=
  [74, 73, 84, 68, 84, 45, 82, 69, 65, 68, 89, 45, if ticktack then 50 else 49]

/-- `dst[strlen(dst) - 1]` is the byte in front of `dst` when the string is empty. -/
def dirnmcpy (before : UInt8) (src : List UInt8) : List UInt8 :=
  if (before :: src).getLast? = some slash then src else src ++ [slash]

def fformat (path : List UInt8) : List UInt8 :=
  if path.getLast? = some slash then path else path ++ [slash]

/-- The path that `locked_lock` opens. -/
def lckpath (ticktack : Bool) (path : List UInt8) : List UInt8 :=
  let lckpath := match rindex path with
    | some (dir, _) => dir ++ [slash]
    | none => [dot, slash]
  fformat lckpath ++ lockfname ticktack

/-- What `mkhist` renames a file of its data directory to. -/
def newname (outdir name : List UInt8) : List UInt8 := outdir ++ name

/-- What `_jitget` opens. -/
def curname (place name : List UInt8) : List UInt8 := place ++ name

/-- kwatcher and a client that were given the directory `d` use the same lock files and
the same data files. -/
def Agree (before : UInt8) (d : List UInt8) : Prop :=
  (∀ ticktack, SameFile (lckpath ticktack (dirnmcpy before d)) (lckpath ticktack d)) ∧
    ∀ name, SameFile (newname (dirnmcpy before d) name) (curname d name)

theorem dirnmcpy_of_slash {before : UInt8} {d : List UInt8} (h : EndsSlash (before :: d)) :
    dirnmcpy before d = d := if_pos (endsSlash_iff.mp h)

theorem dirnmcpy_of_no_slash {before : UInt8} {d : List UInt8} (h : ¬ EndsSlash (before :: d)) :
    dirnmcpy before d = d ++ [slash] := if_neg fun hlast => h (endsSlash_iff.mpr hlast)

theorem fformat_concat (d : List UInt8) : fformat (d ++ [slash]) = d ++ [slash] :=
  if_pos List.getLast?_concat

theorem isName_lockfname (ticktack : Bool) : isName (lockfname ticktack) = true := by
  cases ticktack <;> decide

theorem slash_not_mem_lockfname (ticktack : Bool) : slash ∉ lockfname ticktack := by
  cases ticktack <;> decide

/-- The lock file lies in the directory part of the argument. -/
theorem parts_lckpath (ticktack : Bool) (p : List UInt8) :
    parts (lckpath ticktack p) = parts (dirPart p) ++ [lockfname ticktack] := by
  have hname : parts (lockfname ticktack) = [lockfname ticktack] := by
    rw [parts_of_not_mem (slash_not_mem_lockfname ticktack), if_pos (isName_lockfname ticktack)]
  unfold lckpath dirPart
  cases rindex p with
  | none =>
    change parts (fformat ([dot] ++ [slash]) ++ lockfname ticktack) = parts [] ++ _
    rw [fformat_concat, (endsSlash_concat [dot]).parts_append, hname]
    rfl
  | some x =>
    change parts (fformat (x.1 ++ [slash]) ++ lockfname ticktack) = parts (x.1 ++ [slash]) ++ _
    rw [fformat_concat, (endsSlash_concat x.1).parts_append, hname]

/-- Without the slash the client looks for the lock file one directory too high, unless the
directory ends in a dot. -/
theorem parts_lckpath_eq_iff (ticktack : Bool) (d : List UInt8) :
    parts (lckpath ticktack (d ++ [slash])) = parts (lckpath ticktack d) ↔
      isName (basePart d) = false := by
  have hdir : parts (dirPart (d ++ [slash])) = parts (d ++ [slash]) := by
    rw [parts_eq (d ++ [slash]), basePart_eq_nil (endsSlash_concat d), parts_nil, List.append_nil]
  rw [parts_lckpath, parts_lckpath, hdir, parts_concat_slash, parts_eq d, List.append_left_inj,
    List.append_right_eq_self, parts_of_not_mem (slash_not_mem_basePart d)]
  cases isName (basePart d) <;> simp

/-- Without the slash the name of a file runs into the name of the directory. -/
theorem newname_ne_curname {d name : List UInt8} (hd : d ≠ []) (hslash : ¬ EndsSlash d)
    (hname : isName name = true) (hmem : slash ∉ name) :
    ¬ SameFile (newname (d ++ [slash]) name) (curname d name) := by
  rintro ⟨_, hparts⟩
  have hbase := basePart_ne_nil hd hslash
  have hlong : isName (basePart d ++ name) = true := by
    cases hb : basePart d with
    | nil => exact absurd hb hbase
    | cons c b =>
      cases hn : name with
      | nil =>
        rw [hn] at hname
        cases hname
      | cons e n => simp [isName]
  have hnot : slash ∉ basePart d ++ name := by
    rw [List.mem_append, not_or]
    exact ⟨slash_not_mem_basePart d, hmem⟩
  have hk : parts (newname (d ++ [slash]) name) = parts d ++ [name] := by
    unfold newname
    rw [(endsSlash_concat d).parts_append, parts_concat_slash, parts_of_not_mem hmem, if_pos hname]
  have hc : parts (curname d name) = parts (dirPart d) ++ [basePart d ++ name] := by
    unfold curname
    rw [parts_append, parts_of_not_mem hnot, if_pos hlong]
  rw [hk, hc] at hparts
  have hlast := congrArg List.getLast? hparts
  rw [List.getLast?_concat, List.getLast?_concat] at hlast
  have hlen := congrArg List.length (Option.some.inj hlast)
  rw [List.length_append] at hlen
  exact hbase (List.length_eq_zero_iff.mp (by omega))

/-- They agree exactly on a directory that is written with a slash at its end; for the empty
string the byte in front of the buffer counts as its end. -/
theorem agree_iff (before : UInt8) (d : List UInt8) : Agree before d ↔ EndsSlash (before :: d) := by
  constructor
  · intro hagree
    by_contra hslash
    have hdata := hagree.2 [120]
    rw [dirnmcpy_of_no_slash hslash] at hdata
    cases d with
    | nil =>
      have hroot := hdata.1.mp rfl
      exact absurd hroot (by decide)
    | cons c d =>
      apply newname_ne_curname (List.cons_ne_nil c d) _ (by decide) (by decide) hdata
      rintro ⟨q, hq⟩
      exact hslash ⟨before :: q, by rw [hq]; rfl⟩
  · intro hslash
    unfold Agree
    rw [dirnmcpy_of_slash hslash]
    exact ⟨fun _ => SameFile.refl _, fun _ => SameFile.refl _⟩

/-- The directory of the documentation, `/opt/nowcast/bell`: the client looks for the lock file in
`/opt/nowcast`. -/
theorem agree_fails :
    let d : List UInt8 :=
      [47, 111, 112, 116, 47, 110, 111, 119, 99, 97, 115, 116, 47, 98, 101, 108, 108]
    lckpath false (dirnmcpy 0 d) = d ++ slash :: lockfname false ∧
      lckpath false d = d.take 13 ++ lockfname false ∧ ¬ Agree 0 d := by
  intro d
  refine ⟨by decide, by decide, fun h => ?_⟩
  have hlock := (h.1 false).2
  rw [dirnmcpy_of_no_slash (by decide), parts_lckpath_eq_iff] at hlock
  exact absurd hlock (by decide)

end JitDt.Lockfile
