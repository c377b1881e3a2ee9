import JitDt.Inotifylib.Mynotify

/-!
# Directory trees

What `readdir` lists of a directory, entry by entry, with what the entries hold. The entries come
in any order, `.` and `..` stand anywhere among them, and a directory that cannot be opened has
no listing.
-/

namespace JitDt.Inotifylib

set_option autoImplicit false

open PathName

/-- `known` if the entry is reported with its type, and not as `DT_UNKNOWN`. -/
inductive Listing where
  | nil
  | dots (up known : Bool) (rest : Listing)
  | file (name : Path) (known : Bool) (rest : Listing)
  | dir (name : Path) (known opens : Bool) (sub rest : Listing)

def dotsName (up : Bool) : Path := if up then [dot, dot] else [dot]

namespace Listing

def entries : Listing → List (Path × DType)
  | nil => []
  | dots up known rest => (dotsName up, if known then .dir else .unknown) :: rest.entries
  | file name known rest => (name, if known then .other else .unknown) :: rest.entries
  | dir name known _ _ rest => (name, if known then .dir else .unknown) :: rest.entries

def names : Listing → List Path
  | nil => []
  | dots _ _ rest => rest.names
  | file name _ rest => name :: rest.names
  | dir name _ _ _ rest => name :: rest.names

/-- The directories below that can be reached, a parent before its children. -/
def dirs : Listing → List (List Path)
  | nil => []
  | dots _ _ rest => rest.dirs
  | file _ _ rest => rest.dirs
  | dir name _ opens sub rest =>
    [name] :: ((if opens then sub.dirs else []).map (List.cons name) ++ rest.dirs)

def Proper : Listing → Prop
  | nil => True
  | dots _ _ rest => rest.Proper
  | file name _ rest => IsEntry name ∧ name ∉ rest.names ∧ rest.Proper
  | dir name _ _ sub rest => IsEntry name ∧ name ∉ rest.names ∧ sub.Proper ∧ rest.Proper

/-- Every directory below can be opened. -/
def opened : Listing → Bool
  | nil => true
  | dots _ _ rest => rest.opened
  | file _ _ rest => rest.opened
  | dir _ _ opens sub rest => opens && sub.opened && rest.opened

/-- There are only directories, and they are reported as such. -/
def dirsOnly : Listing → Bool
  | nil => true
  | dots _ known rest => known && rest.dirsOnly
  | file _ _ _ => false
  | dir _ known _ sub rest => known && sub.dirsOnly && rest.dirsOnly

/-- `.` and `..` are reported as directories, and files with an unknown type. -/
def plain : Listing → Bool
  | nil => true
  | dots _ known rest => known && rest.plain
  | file _ known rest => !known && rest.plain
  | dir _ _ _ sub rest => sub.plain && rest.plain

/-- A file is listed when there are no more directories to come. -/
def trailing : Listing → Bool
  | nil => false
  | dots _ _ rest => rest.trailing
  | file _ _ rest => rest.dirs.isEmpty || rest.trailing
  | dir _ _ _ sub rest => rest.dirs.isEmpty && sub.trailing || rest.trailing

def depth : Listing → Nat
  | nil => 0
  | dots _ _ rest => rest.depth
  | file _ _ rest => rest.depth
  | dir _ _ _ sub rest => max (sub.depth + 1) rest.depth

section
variable {L : Listing}

theorem plain_of_dirsOnly (h : L.dirsOnly) : L.plain := by
  induction L with
  | nil => rfl
  | dots up known rest ih =>
    obtain ⟨hknown, hrest⟩ := (Bool.and_eq_true _ _).mp h
    exact (Bool.and_eq_true _ _).mpr ⟨hknown, ih hrest⟩
  | file => cases h
  | dir name known opens sub rest ihs ihr =>
    obtain ⟨hsub, hrest⟩ := (Bool.and_eq_true _ _).mp h
    exact (Bool.and_eq_true _ _).mpr ⟨ihs ((Bool.and_eq_true _ _).mp hsub).2, ihr hrest⟩

theorem trailing_of_dirsOnly (h : L.dirsOnly) : L.trailing = false := by
  induction L with
  | nil => rfl
  | dots up known rest ih => exact ih ((Bool.and_eq_true _ _).mp h).2
  | file => cases h
  | dir name known opens sub rest ihs ihr =>
    obtain ⟨hsub, hrest⟩ := (Bool.and_eq_true _ _).mp h
    unfold trailing
    rw [ihs ((Bool.and_eq_true _ _).mp hsub).2, ihr hrest, Bool.and_false, Bool.or_false]

theorem dir_opened {name : Path} {known opens : Bool} {sub rest : Listing}
    (h : (dir name known opens sub rest).opened) : opens = true ∧ sub.opened ∧ rest.opened := by
  obtain ⟨hsub, hrest⟩ := (Bool.and_eq_true _ _).mp h
  obtain ⟨hopens, hsub⟩ := (Bool.and_eq_true _ _).mp hsub
  exact ⟨hopens, hsub, hrest⟩

theorem depth_le (h : L.opened) : L.depth ≤ L.dirs.length := by
  induction L with
  | nil => exact le_refl 0
  | dots up known rest ih => exact ih h
  | file name known rest ih => exact ih h
  | dir name known opens sub rest ihs ihr =>
    obtain ⟨rfl, hsub, hrest⟩ := dir_opened h
    have hs := ihs hsub
    have hr := ihr hrest
    simp only [depth, dirs, if_pos, List.length_cons, List.length_append, List.length_map]
    omega

theorem head_mem_names {d : List Path} (h : d ∈ L.dirs) : ∃ c ∈ L.names, ∃ e, d = c :: e := by
  induction L with
  | nil => cases h
  | dots up known rest ih => exact ih h
  | file name known rest ih =>
    obtain ⟨c, hc, e, he⟩ := ih h
    exact ⟨c, List.mem_cons_of_mem _ hc, e, he⟩
  | dir name known opens sub rest ihs ihr =>
    rcases List.mem_cons.mp h with rfl | h
    · exact ⟨name, List.mem_cons_self, [], rfl⟩
    · rcases List.mem_append.mp h with h | h
      · obtain ⟨e, _, rfl⟩ := List.mem_map.mp h
        exact ⟨name, List.mem_cons_self, e, rfl⟩
      · obtain ⟨c, hc, e, he⟩ := ihr h
        exact ⟨c, List.mem_cons_of_mem _ hc, e, he⟩

/-- No directory comes behind one that it contains, or twice. -/
theorem dirs_pairwise (h : L.Proper) : L.dirs.Pairwise fun a b => ¬ b <+: a := by
  induction L with
  | nil => exact .nil
  | dots up known rest ih => exact ih h
  | file name known rest ih => exact ih h.2.2
  | dir name known opens sub rest ihs ihr =>
    obtain ⟨_, hname, hsub, hrest⟩ := h
    have hother : ∀ d ∈ rest.dirs, ∀ e, ¬ d <+: name :: e := by
      intro d hd e hpre
      obtain ⟨c, hc, e', rfl⟩ := head_mem_names hd
      exact hname ((List.cons_prefix_cons.mp hpre).1 ▸ hc)
    have hinner : ((if opens then sub.dirs else []).map (List.cons name)).Pairwise
        fun a b => ¬ b <+: a := by
      rw [List.pairwise_map]
      split
      · refine (ihs hsub).imp fun hab hpre => ?_
        exact hab (List.cons_prefix_cons.mp hpre).2
      · exact .nil
    refine .cons ?_ (List.pairwise_append.mpr ⟨hinner, ihr hrest, ?_⟩)
    · intro d hd hpre
      rcases List.mem_append.mp hd with hd | hd
      · obtain ⟨e, he, rfl⟩ := List.mem_map.mp hd
        obtain rfl := List.prefix_nil.mp (List.cons_prefix_cons.mp hpre).2
        split at he
        · obtain ⟨_, _, _, hnil⟩ := head_mem_names he
          cases hnil
        · cases he
      · exact hother d hd [] hpre
    · intro a ha d hd hpre
      obtain ⟨e, _, rfl⟩ := List.mem_map.mp ha
      exact hother d hd e hpre

end

end Listing

/-! ## What the system answers -/

/-- The directory or file that a path leads to, by the names on the way to it; `none` if it leads
nowhere. No path is too long. -/
abbrev Places := Path → Option (List Path)

/-- The entries of the directory at `q` and all below it are there as listed. -/
def Holds (w : World) (loc : Places) : List Path → Listing → Prop
  | _, .nil => True
  | q, .dots up _ rest =>
    (∀ s, loc s = some q → w.stat (s ++ slash :: dotsName up) = some true) ∧ Holds w loc q rest
  | q, .file name _ rest =>
    (∀ s, loc s = some q → w.stat (s ++ slash :: name) = some false) ∧ Holds w loc q rest
  | q, .dir name _ opens sub rest =>
    (∀ s, loc s = some q → w.stat (s ++ slash :: name) = some true ∧
      loc (s ++ slash :: name ++ [slash]) = some (q ++ [name])) ∧
      (∀ s, loc s = some (q ++ [name]) → w.readdir s = if opens then some sub.entries else none) ∧
      (opens = true → Holds w loc (q ++ [name]) sub) ∧ Holds w loc q rest

/-- `path` leads to a directory with this listing, by whatever path it is asked for. -/
structure Rooted (w : World) (loc : Places) (path : Path) (root : List Path) (L : Listing) :
    Prop where
  leads : loc path = some root
  proper : L.Proper
  reads : ∀ s, loc s = some root → w.readdir s = some L.entries
  holds : Holds w loc root L

/-- The places of the directories that are to be reported. -/
def places (root : List Path) (L : Listing) : List (List Path) := root :: L.dirs.map (root ++ ·)

theorem places_pairwise {L : Listing} (h : L.Proper) (root : List Path) :
    (places root L).Pairwise fun a b => ¬ b <+: a := by
  refine .cons ?_ ?_
  · intro q hq hpre
    obtain ⟨d, hd, rfl⟩ := List.mem_map.mp hq
    obtain ⟨c, _, e, rfl⟩ := Listing.head_mem_names hd
    have hlen := hpre.length_le
    rw [List.length_append, List.length_cons] at hlen
    omega
  · rw [List.pairwise_map]
    refine (Listing.dirs_pairwise h).imp fun hab hpre => ?_
    exact hab ((List.prefix_append_right_inj root).mp hpre)

theorem places_nodup {L : Listing} (h : L.Proper) (root : List Path) : (places root L).Nodup := by
  refine (places_pairwise h root).imp ?_
  intro a b hab heq
  apply hab
  rw [heq]

/-! ## A world for every tree -/

/-- What stands at a place. A directory that cannot be opened holds `none`. -/
inductive Node where
  | file
  | dir (held : Option Listing)

def Listing.child : Listing → Path → Option Node
  | .nil, _ => none
  | .dots _ _ rest, c => rest.child c
  | .file name _ rest, c => if c = name then some .file else rest.child c
  | .dir name _ opens sub rest, c =>
    if c = name then some (.dir (if opens then some sub else none)) else rest.child c

namespace Node

def isDir : Node → Bool
  | file => false
  | dir _ => true

def held : Node → Option Listing
  | file => none
  | dir held => held

def below (n : Node) (d : List Path) : Option Node :=
  d.foldl (fun m c => m.bind fun m => m.held.bind fun L => L.child c) (some n)

theorem below_concat (n : Node) (d : List Path) (c : Path) :
    n.below (d ++ [c]) = (n.below d).bind fun m => m.held.bind fun L => L.child c := by
  unfold below
  rw [List.foldl_append, List.foldl_cons, List.foldl_nil]

end Node

/-- The system with nothing but the tree `L` at `root`. -/
def nodeAt (root : List Path) (L : Listing) (s : Path) : Option Node :=
  (leads s).bind fun q =>
    if root <+: q then (Node.dir (some L)).below (q.drop root.length) else none

def treeStat (root : List Path) (L : Listing) (s : Path) : Option Bool :=
  if (parts s).getLast? = some [dot, dot] then some true else (nodeAt root L s).map Node.isDir

def treeWorld (root : List Path) (L : Listing) : World where
  stat := treeStat root L
  readdir := fun s => (nodeAt root L s).bind fun n => n.held.map Listing.entries
  live := fun _ => none
  func := fun _ => 0

section
variable {root : List Path} {L M : Listing} {s : Path} {d : List Path} {n : Node}

theorem nodeAt_of_leads (hs : leads s = some (root ++ d)) :
    nodeAt root L s = (Node.dir (some L)).below d := by
  unfold nodeAt
  rw [hs, Option.bind_some, if_pos (List.prefix_append root d), List.drop_left]

theorem stat_entry {c : Path} (hc : IsEntry c) (hs : leads s = some (root ++ d))
    (hn : (Node.dir (some L)).below (d ++ [c]) = some n) :
    treeStat root L (s ++ slash :: c) = some n.isDir := by
  have hlast : (parts (s ++ slash :: c)).getLast? = some c := by
    rw [parts_append_slash, parts_of_not_mem hc.1, if_pos hc.2.1, List.getLast?_concat]
  have hlead : leads (s ++ slash :: c) = some (root ++ (d ++ [c])) := by
    rw [leads_entry hs hc, List.append_assoc]
  unfold treeStat
  rw [hlast, if_neg fun h => hc.2.2 (Option.some.inj h), nodeAt_of_leads hlead, hn]
  rfl

theorem stat_dots (up : Bool) (hs : leads s = some (root ++ d))
    (hn : (Node.dir (some L)).below d = some (.dir (some M))) :
    treeStat root L (s ++ slash :: dotsName up) = some true := by
  unfold treeStat
  cases up with
  | true =>
    apply if_pos
    rw [parts_append_slash]
    exact List.getLast?_concat
  | false =>
    have hlead : leads (s ++ slash :: dotsName false) = some (root ++ d) := leads_append_slash hs _
    simp only [nodeAt_of_leads hlead, hn, Option.map_some, Node.isDir, ite_self]

theorem holds_treeWorld (hn : (Node.dir (some L)).below d = some (.dir (some M)))
    {rest : Listing} (hprop : rest.Proper) (hrest : ∀ c ∈ rest.names, M.child c = rest.child c) :
    Holds (treeWorld root L) leads (root ++ d) rest := by
  induction rest generalizing d M with
  | nil => trivial
  | dots up known rest ih => exact ⟨fun s hs => stat_dots up hs hn, ih hn hprop hrest⟩
  | file name known rest ih =>
    obtain ⟨hentry, hnew, hprop⟩ := hprop
    have hchild : (Node.dir (some L)).below (d ++ [name]) = some .file := by
      rw [Node.below_concat, hn]
      refine (hrest name List.mem_cons_self).trans ?_
      rw [Listing.child, if_pos rfl]
    refine ⟨fun s hs => stat_entry hentry hs hchild, ih hn hprop fun c hc => ?_⟩
    exact (hrest c (List.mem_cons_of_mem _ hc)).trans (if_neg (ne_of_mem_of_not_mem hc hnew))
  | dir name known opens sub rest ihs ihr =>
    obtain ⟨hentry, hnew, hpsub, hprest⟩ := hprop
    have hchild : (Node.dir (some L)).below (d ++ [name]) =
        some (.dir (if opens then some sub else none)) := by
      rw [Node.below_concat, hn]
      refine (hrest name List.mem_cons_self).trans ?_
      rw [Listing.child, if_pos rfl]
    rw [Holds, List.append_assoc]
    refine ⟨fun s hs => ⟨stat_entry hentry hs hchild, ?_⟩, fun s hs => ?_, fun hopens => ?_,
      ihr hn hprest fun c hc => ?_⟩
    · rw [← List.append_assoc]
      exact leads_concat_slash (leads_entry hs hentry)
    · unfold treeWorld
      simp only [nodeAt_of_leads hs, hchild, Option.bind_some, Node.held]
      cases opens <;> rfl
    · rw [hopens] at hchild
      exact ihs hchild hpsub fun _ _ => rfl
    · exact (hrest c (List.mem_cons_of_mem _ hc)).trans (if_neg (ne_of_mem_of_not_mem hc hnew))

/-- Every tree stands in some system. -/
theorem rooted_treeWorld {path : Path} (hpath : leads path = some root) (hprop : L.Proper) :
    Rooted (treeWorld root L) leads path root L := by
  have hroot : leads path = some (root ++ []) := by rw [hpath, List.append_nil]
  refine ⟨hpath, hprop, fun s hs => ?_, ?_⟩
  · have hs' : leads s = some (root ++ []) := by rw [hs, List.append_nil]
    unfold treeWorld
    simp only [nodeAt_of_leads hs']
    rfl
  · have h := @holds_treeWorld root L L [] rfl L hprop fun _ _ => rfl
    rwa [List.append_nil] at h

end

end JitDt.Inotifylib
