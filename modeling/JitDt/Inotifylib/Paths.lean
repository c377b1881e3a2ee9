import JitDt.Inotifylib.Mynotify
import JitDt.Lib.Machine

/-!
# The paths of the watch table

The rows of `wdirs` are shared modulo their number, and the test for the last one looks at the
current directory only. An instance hands its descriptors out in order and the one handed out
last is current while it is the last row, so it is given up before a row is used twice.
-/

namespace JitDt.Inotifylib

set_option autoImplicit false

open PathName (slash parts index EndsSlash)

/-! ## Runs -/

structure Config where
  topdir : Path
  startdir : Option Path
  sdirflag : Bool

def Inotify.gone (i : Inotify) (d : Dir) : Inotify :=
  { i with watch := Function.update i.watch d none }

/-- An event, with the answers of the system while it is handled and while the watches are set up
again if it leads to `resetting`, or the end of the watch of a directory that is removed. -/
inductive Action where
  | event (e : Event) (w w' : World)
  | gone (d : Dir)

def start (cfg : Config) (w : World) : Option Notify := restart cfg.topdir w cfg.startdir .zero

/-- An event names a descriptor of the instance. `none` also if the program ends. -/
def step (cfg : Config) (s : Notify) : Action → Option Notify
  | .gone d => some { s with ino := s.ino.gone d }
  | .event e w w' =>
    if 0 < e.wd ∧ e.wd < s.ino.next then
      match handle cfg.sdirflag w e s with
      | .next s _ => some s
      | .resetting s avpath => restart cfg.topdir w' (some (avpath.drop cfg.topdir.length)) s
      | .exit _ => none
      | .never _ => none
    else none

/-- A directory at or under the path. -/
def Under (avpath p : Path) : Prop := p = avpath ∨ avpath ++ [slash] <+: p

instance (avpath p : Path) : Decidable (Under avpath p) :=
  inferInstanceAs (Decidable (p = avpath ∨ avpath ++ [slash] <+: p))

/-- For a directory event the path fits, and `dirs_check` reports only directories at or under
it. -/
def Domain (cfg : Config) (s : Notify) : Action → Prop
  | .gone _ => True
  | .event e w _ => Created w e s → (s.avpath e).length < pathMax ∧
      ∀ r, dirs_check w pathMax 0 (.buf (s.avpath e)) cfg.sdirflag s.dirent = some r →
        ∀ p ∈ found r, Under (s.avpath e) p

/-! ## The rows -/

theorem row_natCast {n : Nat} (h : n ≤ maxDirs) : row n = n % maxDirs := by
  have hlt : (n : Int) < 2 ^ 32 := by
    unfold maxDirs at h
    omega
  unfold row
  rw [Int.emod_eq_of_lt (Int.natCast_nonneg n) hlt, ← Int.natCast_emod, Int.toNat_natCast]

theorem row_inj {m n : Nat} (hm : 1 ≤ m ∧ m ≤ maxDirs) (hn : 1 ≤ n ∧ n ≤ maxDirs)
    (h : row m = row n) : m = n := by
  rw [row_natCast hm.2, row_natCast hn.2] at h
  unfold maxDirs at h hm hn
  omega

/-- The text is a path of the directory below the top directory, ready to be joined. -/
structure Names (topdir p : Path) (d : List Path) : Prop where
  parts_eq : parts p = d
  slash : EndsSlash p
  top : topdir <+: p

structure Tables (topdir : Path) (s : Notify) : Prop where
  pos : 1 ≤ s.ino.next
  handed : ∀ n, (∃ d, s.ino.dirOf n = some d) ↔ 1 ≤ n ∧ n < s.ino.next
  watched : ∀ {d n}, s.ino.watch d = some n → s.ino.dirOf n = some d
  named : ∀ {n d}, s.ino.dirOf n = some d → Names topdir (s.wdirs (row n)) d.path
  room : s.ino.next ≤ maxDirs + 1

/-- The last row belongs to the current directory. -/
structure Inv (topdir : Path) (s : Notify) : Prop extends Tables topdir s where
  cur : ∃ n : Nat, s.curdir = n ∧ 1 ≤ n ∧ n < s.ino.next
  full : s.ino.next = maxDirs + 1 → s.curdir = maxDirs

section Preservation
variable {topdir p r avpath : Path} {w : World} {s t : Notify} {ps : List Path}

theorem Tables.row_inj (h : Tables topdir s) {m n : Nat} {d d' : Dir}
    (hm : s.ino.dirOf m = some d) (hn : s.ino.dirOf n = some d') (hrow : row m = row n) :
    m = n := by
  have hm' := (h.handed m).mp ⟨d, hm⟩
  have hn' := (h.handed n).mp ⟨d', hn⟩
  have hroom := h.room
  exact Inotifylib.row_inj ⟨hm'.1, by omega⟩ ⟨hn'.1, by omega⟩ hrow

/-- Nothing but watches is lost. -/
theorem Inv.of_fewer (h : Inv topdir s) (hwdirs : t.wdirs = s.wdirs) (hcur : t.curdir = s.curdir)
    (hnext : t.ino.next = s.ino.next) (hdirOf : t.ino.dirOf = s.ino.dirOf)
    (hwatch : ∀ {d n}, t.ino.watch d = some n → s.ino.watch d = some n) : Inv topdir t := by
  refine ⟨⟨?_, ?_, ?_, ?_, ?_⟩, ?_, ?_⟩
  · rw [hnext]
    exact h.pos
  · intro n
    rw [hdirOf, hnext]
    exact h.handed n
  · intro d n hn
    rw [hdirOf]
    exact h.watched (hwatch hn)
  · intro n d hn
    rw [hdirOf] at hn
    rw [hwdirs]
    exact h.named hn
  · rw [hnext]
    exact h.room
  · rw [hcur, hnext]
    exact h.cur
  · rw [hcur, hnext]
    exact h.full

theorem Tables.enter (h : Tables topdir s) (hroom : s.ino.next ≤ maxDirs)
    (hr : Names topdir r (parts p)) (ht : enter w p r s = some t) : Tables topdir t := by
  obtain ⟨g, n, i, -, hreg, rfl⟩ := enter_cases ht
  cases hreg with
  | old hold =>
    refine ⟨h.pos, h.handed, h.watched, ?_, h.room⟩
    intro m d hm
    by_cases hrow : row m = row n
    · obtain rfl := h.row_inj hm (h.watched hold) hrow
      obtain rfl := Option.some.inj (hm.symm.trans (h.watched hold))
      simpa using hr
    · simpa [Function.update_of_ne hrow] using h.named hm
  | new hnew =>
    have hfresh : ∀ {m d}, s.ino.dirOf m = some d → m ≠ s.ino.next := by
      intro m d hm heq
      have hlt := (h.handed m).mp ⟨d, hm⟩
      omega
    refine ⟨Nat.le_add_left 1 _, ?_, ?_, ?_, Nat.succ_le_succ hroom⟩
    · intro m
      by_cases hm : m = s.ino.next
      · subst hm
        exact iff_of_true ⟨_, Function.update_self ..⟩ ⟨h.pos, Nat.lt_succ_self _⟩
      · simp only [Function.update_of_ne hm, h.handed m]
        omega
    · intro d m hm
      by_cases hd : d = ⟨parts p, g⟩
      · subst hd
        obtain rfl : s.ino.next = m := by simpa using hm
        exact Function.update_self ..
      · have hold := h.watched (by simpa [Function.update_of_ne hd] using hm)
        simpa [Function.update_of_ne (hfresh hold)] using hold
    · intro m d hm
      by_cases hm' : m = s.ino.next
      · subst hm'
        obtain rfl : ⟨parts p, g⟩ = d := by simpa using hm
        simpa using hr
      · have hold : s.ino.dirOf m = some d := by simpa [Function.update_of_ne hm'] using hm
        have hrow : row m ≠ row s.ino.next := by
          intro hrow
          have hm := (h.handed m).mp ⟨d, hold⟩
          exact hm' (Inotifylib.row_inj ⟨hm.1, by omega⟩ ⟨h.pos, hroom⟩ hrow)
        simpa [Function.update_of_ne hrow] using h.named hold

theorem Tables.getwdir (h : Tables topdir s) {wd : Int} (hwd : 0 < wd ∧ wd < s.ino.next) :
    ∃ d, s.ino.dirOf wd.toNat = some d ∧ Names topdir (s.getwdir wd) d.path := by
  obtain ⟨n, rfl⟩ := Int.eq_ofNat_of_zero_le hwd.1.le
  obtain ⟨d, hd⟩ := (h.handed n).mpr (by omega)
  exact ⟨d, hd, h.named hd⟩

theorem names_fformat (hp : topdir <+: p) : Names topdir (fformat p) (parts p) :=
  ⟨parts_fformat p, endsSlash_fformat p, hp.trans (prefix_fformat p)⟩

/-- A directory is entered while the last row is free. -/
theorem Inv.enter (h : Inv topdir s) (hex : isExhaust s.curdir = false)
    (hr : Names topdir r (parts p)) (ht : enter w p r s = some t) : Inv topdir t := by
  have hroom : s.ino.next ≤ maxDirs := by
    have hle := h.room
    have hfull : s.ino.next ≠ maxDirs + 1 := by
      intro heq
      rw [h.full heq] at hex
      cases hex
    omega
  have hT := h.toTables.enter hroom hr ht
  obtain ⟨g, n, i, -, hreg, rfl⟩ := enter_cases ht
  cases hreg with
  | old hold =>
    have hn := (h.handed n).mp ⟨_, h.watched hold⟩
    refine ⟨hT, ⟨n, rfl, hn⟩, ?_⟩
    intro heq
    change s.ino.next = _ at heq
    omega
  | new hnew =>
    refine ⟨hT, ⟨s.ino.next, rfl, h.pos, Nat.lt_succ_self _⟩, ?_⟩
    intro heq
    change s.ino.next + 1 = _ at heq
    change (s.ino.next : Int) = _
    omega

theorem Inv.enterAll (h : Inv topdir s) (hps : ∀ p ∈ ps, topdir <+: p) {call : Option Path}
    (ht : enterAll w avpath ps s = .next t call) : Inv topdir t := by
  induction ps generalizing s with
  | nil =>
    cases ht
    exact h
  | cons p ps ih =>
    unfold Inotifylib.enterAll at ht
    split at ht
    · cases ht
    · rename_i hex
      split at ht
      · cases ht
      · rename_i u hu
        have hp := hps p List.mem_cons_self
        apply ih _ (fun p hp => hps p (List.mem_cons_of_mem _ hp)) ht
        exact h.enter (by simpa using hex) (names_fformat hp) hu

theorem enterAll_resetting {a : Path} (ht : Inotifylib.enterAll w avpath ps s = .resetting t a) :
    a = avpath := by
  induction ps generalizing s with
  | nil => cases ht
  | cons p ps ih =>
    unfold Inotifylib.enterAll at ht
    split at ht
    · cases ht
      rfl
    · split at ht
      · cases ht
      · exact ih ht

end Preservation

/-! ## The restart -/

/-- Every directory from the top one to the current one is there and watched. -/
def Linked (topdir : Path) (live : List Path → Option Nat) (s : Notify) : Prop :=
  ∀ a, parts topdir <+: a → a <+: parts (s.getwdir s.curdir) →
    ∃ g n, live a = some g ∧ s.ino.watch ⟨a, g⟩ = some n

/-- The state in the loop over the parts of `startdir`. -/
structure Chain (topdir : Path) (w : World) (s : Notify) : Prop extends Tables topdir s where
  cur : ∃ (n : Nat) (g : Nat), s.curdir = n ∧ w.live (parts (s.getwdir s.curdir)) = some g ∧
    s.ino.watch ⟨parts (s.getwdir s.curdir), g⟩ = some n
  linked : Linked topdir w.live s

section Restart
variable {topdir p r avpath part rest sp : Path} {w : World} {s t : Notify}

theorem getwdir_enter (ht : enter w p r s = some t) : t.getwdir t.curdir = r := by
  obtain ⟨g, n, i, -, -, rfl⟩ := enter_cases ht
  exact Function.update_self ..

theorem Chain.names (h : Chain topdir w s) :
    Names topdir (s.getwdir s.curdir) (parts (s.getwdir s.curdir)) := by
  obtain ⟨n, g, hn, -, hw⟩ := h.cur
  have hnamed := h.named (h.watched hw)
  rw [← hn] at hnamed
  exact hnamed

/-- An empty part names the current directory again, which is watched already. -/
theorem next_enter (h : Chain topdir w s) (hpart : slash ∉ part)
    (ht : enter w (s.getwdir s.curdir ++ part) r s = some t) :
    t.ino.next ≤ s.ino.next + (parts part).length := by
  obtain ⟨g, n, i, hg, hreg, rfl⟩ := enter_cases ht
  rw [h.names.slash.parts_append] at hg hreg
  rcases PathName.parts_cases hpart with hp | hp
  · obtain ⟨m, g', -, hlive, hwatch⟩ := h.cur
    rw [hp, List.append_nil] at hg hreg
    obtain rfl := Option.some.inj (hg.symm.trans hlive)
    rw [hp]
    cases hreg with
    | old => exact Nat.le_refl _
    | new hnew =>
      rw [hnew] at hwatch
      cases hwatch
  · rw [hp]
    cases hreg with
    | old => exact Nat.le_succ _
    | new => exact Nat.le_refl _

theorem Chain.enter (h : Chain topdir w s) (hpart : slash ∉ part) (hroom : s.ino.next ≤ maxDirs)
    (ht : enter w (s.getwdir s.curdir ++ part) (fformat (s.getwdir s.curdir ++ part)) s = some t) :
    Chain topdir w t := by
  have hparts := h.names.slash.parts_append part
  have hrow := getwdir_enter ht
  have hnames := names_fformat (h.names.top.trans (List.prefix_append _ part))
  have hT := h.toTables.enter hroom hnames ht
  obtain ⟨g, n, i, hg, hreg, rfl⟩ := enter_cases ht
  have hwatch := hreg.self
  refine ⟨hT, ⟨n, g, rfl, ?_, ?_⟩, ?_⟩
  · rw [hrow, parts_fformat]
    exact hg
  · rw [hrow, parts_fformat]
    exact hwatch
  · intro a htop ha
    rw [hrow, parts_fformat] at ha
    by_cases hlast : a = parts (s.getwdir s.curdir ++ part)
    · rw [hlast]
      exact ⟨g, n, hg, hwatch⟩
    · have hold : a <+: parts (s.getwdir s.curdir) := by
        rcases PathName.parts_cases hpart with hp | hp
        · rw [hparts, hp, List.append_nil] at ha
          exact ha
        · rw [hparts, hp] at ha hlast
          exact (List.prefix_concat_iff.mp ha).resolve_left hlast
      obtain ⟨g', m, hlive, hm⟩ := h.linked a htop hold
      exact ⟨g', m, hlive, hreg.mono hm⟩

theorem Chain.descend {k : Nat} (h : Chain topdir w s) (hsp : sp = [] ∨ EndsSlash sp)
    (hroom : s.ino.next + (parts sp).length ≤ maxDirs) (ht : descend w k sp s = some t) :
    Chain topdir w t ∧ t.ino.next ≤ maxDirs ∧
      parts (t.getwdir t.curdir) = parts (s.getwdir s.curdir) ++ parts sp := by
  induction k generalizing sp s with
  | zero => cases ht
  | succ k ih =>
    unfold Inotifylib.descend at ht
    split at ht
    · rename_i hi
      cases ht
      rcases hsp with rfl | hsp
      · exact ⟨h, hroom, (List.append_nil _).symm⟩
      · obtain ⟨a, b, hab, -⟩ := hsp.index
        rw [hab] at hi
        cases hi
    · rename_i part rest hi
      obtain ⟨u, hu, ht⟩ := Option.bind_eq_some_iff.mp ht
      obtain ⟨rfl, hpart⟩ := PathName.index_eq_some hi
      have hrest : rest = [] ∨ EndsSlash rest := by
        rcases hsp with hsp | hsp
        · simp at hsp
        · obtain ⟨a, b, hab, hb⟩ := hsp.index
          rw [hab] at hi
          cases hi
          exact hb
      rw [PathName.parts_append_slash, List.length_append] at hroom
      have hnext := next_enter h hpart hu
      obtain ⟨hc, hle, heq⟩ := ih (h.enter hpart (by omega) hu) hrest (by omega) ht
      refine ⟨hc, hle, ?_⟩
      rw [heq, getwdir_enter hu, parts_fformat, h.names.slash.parts_append,
        PathName.parts_append_slash, List.append_assoc]

theorem descend_isSome {k : Nat} (hrow : EndsSlash (s.getwdir s.curdir)) (hk : sp.length < k)
    (hlive : ∀ a, parts (s.getwdir s.curdir) <+: a → a <+: parts (s.getwdir s.curdir) ++ parts sp →
      (w.live a).isSome) : (descend w k sp s).isSome := by
  induction k generalizing sp s with
  | zero => cases hk
  | succ k ih =>
    unfold Inotifylib.descend
    split
    · rfl
    · rename_i part rest hi
      obtain ⟨rfl, hpart⟩ := PathName.index_eq_some hi
      rw [List.length_append, List.length_cons] at hk
      rw [PathName.parts_append_slash, ← List.append_assoc] at hlive
      have hparts := hrow.parts_append part
      have hfirst : (w.live (parts (s.getwdir s.curdir ++ part))).isSome := by
        rw [hparts]
        exact hlive _ (List.prefix_append _ _) (List.prefix_append _ _)
      obtain ⟨u, hu⟩ := Option.isSome_iff_exists.mp (enter_isSome (s := s)
        (r := fformat (s.getwdir s.curdir ++ part)) hfirst)
      rw [Option.isSome_bind, hu, Option.any_some]
      apply ih
      · rw [getwdir_enter hu]
        exact endsSlash_fformat _
      · omega
      · intro a
        rw [getwdir_enter hu, parts_fformat, hparts]
        intro ha
        exact hlive a ((List.prefix_append _ _).trans ha)

theorem reset_watch_init (s : Notify) : (reset_watch { s with ino := .init }).ino = .init := by
  apply List.foldl_fixed'
  intro k
  split
  · rfl
  · rfl

theorem chain_first (htop : EndsSlash topdir) (hs : s.ino = .init)
    (ht : enter w topdir topdir s = some t) : Chain topdir w t ∧ t.ino.next ≤ 2 := by
  have hT : Tables topdir s := by
    constructor
    all_goals rw [hs]
    · exact Nat.le_refl 1
    · intro n
      refine iff_of_false ?_ (fun hn => absurd hn.2 (Nat.not_lt.mpr hn.1))
      rintro ⟨d, hd⟩
      cases hd
    · intro d n hd
      cases hd
    · intro n d hd
      cases hd
    · exact Nat.succ_le_succ (Nat.zero_le _)
  have hroom : s.ino.next ≤ maxDirs := by
    rw [hs]
    exact Nat.succ_le_succ (Nat.zero_le _)
  have hT' := hT.enter hroom ⟨rfl, htop, List.prefix_rfl⟩ ht
  have hrow := getwdir_enter ht
  obtain ⟨g, n, i, hg, hreg, rfl⟩ := enter_cases ht
  have hwatch := hreg.self
  refine ⟨⟨hT', ⟨n, g, rfl, ?_, ?_⟩, ?_⟩, ?_⟩
  · rw [hrow]
    exact hg
  · rw [hrow]
    exact hwatch
  · intro a ha ha'
    rw [hrow] at ha'
    obtain rfl : parts topdir = a := ha.eq_of_length_le ha'.length_le
    exact ⟨g, n, hg, hwatch⟩
  · change i.next ≤ 2
    rw [hs] at hreg
    cases hreg with
    | old hold => cases hold
    | new => exact Nat.le_refl 2

theorem restart_spec (htop : EndsSlash topdir) {startdir : Option Path}
    (hlen : topdir.length + (startdir.getD []).length < pathMax)
    (ht : restart topdir w startdir s = some t) :
    Chain topdir w t ∧ t.ino.next ≤ maxDirs ∧
      parts (t.getwdir t.curdir) = parts topdir ++ parts (startdir.getD []) := by
  obtain ⟨u, hu, ht⟩ := Option.bind_eq_some_iff.mp ht
  obtain ⟨hc, hnext⟩ := chain_first htop (reset_watch_init s) hu
  have hrow := getwdir_enter hu
  cases startdir with
  | none =>
    cases ht
    refine ⟨hc, hnext.trans (by decide), ?_⟩
    rw [hrow]
    exact (List.append_nil _).symm
  | some sp =>
    have hroom : 2 + (parts (fformat sp)).length ≤ maxDirs := by
      have hsp := PathName.two_mul_length_parts sp
      rw [Option.getD_some] at hlen
      rw [parts_fformat]
      unfold pathMax at hlen
      unfold maxDirs
      omega
    obtain ⟨hc', hle, heq⟩ := hc.descend (.inr (endsSlash_fformat sp)) (by omega) ht
    refine ⟨hc', hle, ?_⟩
    rw [heq, hrow, parts_fformat, Option.getD_some]

theorem restart_isSome (htop : EndsSlash topdir)
    (hlive : ∀ a, parts topdir <+: a → a <+: parts topdir ++ parts sp → (w.live a).isSome) :
    (restart topdir w (some sp) s).isSome := by
  have hfirst : (w.live (parts topdir)).isSome :=
    hlive _ List.prefix_rfl (List.prefix_append _ _)
  obtain ⟨u, hu⟩ := Option.isSome_iff_exists.mp (enter_isSome
    (s := reset_watch { s with ino := .init }) (r := topdir) hfirst)
  have hrow := getwdir_enter hu
  unfold restart
  rw [hu]
  apply descend_isSome
  · rw [hrow]
    exact htop
  · exact Nat.lt_succ_self _
  · rw [hrow, parts_fformat]
    exact hlive

theorem Chain.inv (h : Chain topdir w s) (hroom : s.ino.next ≤ maxDirs) : Inv topdir s := by
  obtain ⟨n, g, hn, -, hw⟩ := h.cur
  refine ⟨h.toTables, ⟨n, hn, (h.handed n).mp ⟨_, h.watched hw⟩⟩, ?_⟩
  intro heq
  omega

end Restart

/-! ## Every run -/

section Run
variable {cfg : Config} {s t : Notify} {a : Action} {e : Event} {w w' : World}

theorem Inv.leave (h : Inv cfg.topdir s) (wd : Int) : Inv cfg.topdir (leave wd s) := by
  refine h.of_fewer (leave_wdirs wd s) (leave_curdir wd s) (leave_next wd s) (leave_dirOf wd s) ?_
  intro d n hn
  exact (leave_watch.mp hn).1

theorem Inv.avpath (h : Inv cfg.topdir s) (hwd : 0 < e.wd ∧ e.wd < s.ino.next) :
    cfg.topdir <+: s.avpath e := by
  obtain ⟨d, -, hd⟩ := h.getwdir hwd
  exact hd.top.trans (List.prefix_append _ _)

/-- The text behind the top directory leads back to the directory of the event. -/
theorem parts_startdir (htop : EndsSlash cfg.topdir) (h : cfg.topdir <+: s.avpath e) :
    parts cfg.topdir ++ parts ((s.avpath e).drop cfg.topdir.length) = parts (s.avpath e) := by
  rw [← htop.parts_append, List.prefix_iff_eq_append.mp h]

theorem found_top (h : Inv cfg.topdir s) (hwd : 0 < e.wd ∧ e.wd < s.ino.next)
    {r : Nat × (Nat → Path)} (hr : ∀ p ∈ found r, Under (s.avpath e) p) :
    ∀ p ∈ found r, cfg.topdir <+: p := by
  intro p hp
  have hav := h.avpath hwd
  rcases hr p hp with rfl | hpre
  · exact hav
  · exact hav.trans ((List.prefix_append _ _).trans hpre)

/-- What a step other than the end of a watch does. -/
theorem step_cases (ht : step cfg s (.event e w w') = some t) :
    (0 < e.wd ∧ e.wd < s.ino.next) ∧
      ((∃ call, handle cfg.sdirflag w e s = .next t call) ∨
        ∃ u avpath, handle cfg.sdirflag w e s = .resetting u avpath ∧
          restart cfg.topdir w' (some (avpath.drop cfg.topdir.length)) u = some t) := by
  simp only [step] at ht
  split at ht
  · rename_i hwd
    refine ⟨hwd, ?_⟩
    split at ht
    · rename_i u call hu
      cases ht
      exact .inl ⟨call, hu⟩
    · rename_i u avpath hu
      exact .inr ⟨u, avpath, hu, ht⟩
    · cases ht
    · cases ht
  · cases ht

/-- The loop is left for `resetting` only by a directory event, with the path of the event. -/
theorem handle_resetting {u : Notify} {avpath : Path} {sdirflag : Bool}
    (h : handle sdirflag w e s = .resetting u avpath) : Created w e s ∧ avpath = s.avpath e := by
  by_cases hc : Created w e s
  · refine ⟨hc, ?_⟩
    rw [handle_created hc] at h
    rcases dirEvent_cases h with ⟨-, hnever⟩ | ⟨q, -, hq⟩
    · cases hnever
    · exact enterAll_resetting hq
  · obtain ⟨p, call, hnext⟩ := handle_not_created sdirflag hc
    rw [hnext] at h
    cases h

theorem Inv.handle {call : Option Path} (h : Inv cfg.topdir s)
    (hwd : 0 < e.wd ∧ e.wd < s.ino.next) (hd : Domain cfg s (.event e w w'))
    (ht : handle cfg.sdirflag w e s = .next t call) : Inv cfg.topdir t := by
  by_cases hc : Created w e s
  · rw [handle_created hc] at ht
    rcases dirEvent_cases ht with ⟨-, hnever⟩ | ⟨q, hdirs, hq⟩
    · cases hnever
    · have hl := h.leave e.wd
      apply Inv.enterAll _ (found_top h hwd ((hd hc).2 q hdirs)) hq
      exact hl.of_fewer rfl rfl rfl rfl id
  · obtain ⟨p, call', hnext⟩ := handle_not_created cfg.sdirflag hc
    rw [hnext] at ht
    cases ht
    exact h.of_fewer rfl rfl rfl rfl id

/-- What a restart leaves. -/
theorem restart_event (htop : EndsSlash cfg.topdir) (h : Inv cfg.topdir s)
    (hwd : 0 < e.wd ∧ e.wd < s.ino.next) (hd : Domain cfg s (.event e w w')) {u : Notify}
    {avpath : Path} (hu : handle cfg.sdirflag w e s = .resetting u avpath)
    (ht : restart cfg.topdir w' (some (avpath.drop cfg.topdir.length)) u = some t) :
    Chain cfg.topdir w' t ∧ t.ino.next ≤ maxDirs ∧
      parts (t.getwdir t.curdir) = parts (s.avpath e) := by
  obtain ⟨hc, rfl⟩ := handle_resetting hu
  have hav := h.avpath hwd
  obtain ⟨hlen, -⟩ := hd hc
  have hle := hav.length_le
  have hsp : cfg.topdir.length +
      ((some ((s.avpath e).drop cfg.topdir.length)).getD []).length < pathMax := by
    rw [Option.getD_some, List.length_drop]
    omega
  obtain ⟨hchain, hnext, heq⟩ := restart_spec htop hsp ht
  refine ⟨hchain, hnext, ?_⟩
  rw [heq, Option.getD_some, parts_startdir htop hav]

theorem Inv.step (htop : EndsSlash cfg.topdir) (h : Inv cfg.topdir s) (hd : Domain cfg s a)
    (ht : step cfg s a = some t) : Inv cfg.topdir t := by
  cases a with
  | gone d =>
    cases ht
    refine h.of_fewer (t := { s with ino := s.ino.gone d }) rfl rfl rfl rfl ?_
    intro d' n hn
    by_cases hd' : d' = d
    · subst hd'
      simp [Inotify.gone] at hn
    · simpa [Inotify.gone, Function.update_of_ne hd'] using hn
  | event e w w' =>
    obtain ⟨hwd, ⟨call, hu⟩ | ⟨u, avpath, hu, ht⟩⟩ := step_cases ht
    · exact h.handle hwd hd hu
    · obtain ⟨hc, hnext, -⟩ := restart_event htop h hwd hd hu ht
      exact hc.inv hnext

/-- In every state of a run each descriptor of the instance has a row of its own with the path of
its directory, and a restart leads back to the directory that caused it, all its ancestors being
watched; it ends the program only if one of them is no longer there. -/
theorem event_paths_right (cfg : Config) (htop : EndsSlash cfg.topdir)
    (hlen : cfg.topdir.length + (cfg.startdir.getD []).length < pathMax) {w₀ : World}
    {s₀ s : Notify} {acts : List Action} (hs₀ : start cfg w₀ = some s₀)
    (hdom : Machine.Along (step cfg) (Domain cfg) s₀ acts)
    (hrun : Machine.exec (step cfg) s₀ acts = some s) :
    (∀ (n : Nat) d, s.ino.dirOf n = some d →
        parts (s.getwdir n) = d.path ∧ EndsSlash (s.getwdir n)) ∧
      (∀ (m n : Nat) d d', s.ino.dirOf m = some d → s.ino.dirOf n = some d' →
        row m = row n → m = n) ∧
      ∀ e w w' u avpath, Domain cfg s (.event e w w') → 0 < e.wd ∧ e.wd < s.ino.next →
        handle cfg.sdirflag w e s = .resetting u avpath →
          (∀ t, step cfg s (.event e w w') = some t →
            (∃ (n : Nat) (g : Nat), t.curdir = n ∧ t.ino.dirOf n = some ⟨parts (s.avpath e), g⟩ ∧
              w'.live (parts (s.avpath e)) = some g) ∧
            parts (t.getwdir t.curdir) = parts (s.avpath e) ∧ Linked cfg.topdir w'.live t) ∧
          ((∀ a, parts cfg.topdir <+: a → a <+: parts (s.avpath e) → (w'.live a).isSome) →
            (step cfg s (.event e w w')).isSome) := by
  have hI₀ : Inv cfg.topdir s₀ := by
    obtain ⟨hc, hnext, -⟩ := restart_spec htop hlen hs₀
    exact hc.inv hnext
  have hI : Inv cfg.topdir s := Machine.exec_invariant_along (fun h hd ht => h.step htop hd ht)
    hI₀ hdom hrun
  refine ⟨?_, ?_, ?_⟩
  · intro n d hd
    have hn := hI.named hd
    exact ⟨hn.parts_eq, hn.slash⟩
  · intro m n d d' hm hn hrow
    exact hI.row_inj hm hn hrow
  · intro e w w' u avpath hd hwd hu
    constructor
    · intro t ht
      obtain ⟨-, ⟨call, hnext⟩ | ⟨u', avpath', hu', ht⟩⟩ := step_cases ht
      · rw [hu] at hnext
        cases hnext
      · obtain ⟨hc, -, heq⟩ := restart_event htop hI hwd hd hu' ht
        obtain ⟨n, g, hn, hlive, hwatch⟩ := hc.cur
        rw [heq] at hlive hwatch
        exact ⟨⟨n, g, hn, hc.watched hwatch, hlive⟩, heq, hc.linked⟩
    · intro hlive
      obtain ⟨-, rfl⟩ := handle_resetting hu
      simp only [Inotifylib.step]
      rw [if_pos hwd, hu]
      apply restart_isSome htop
      rw [parts_startdir htop (hI.avpath hwd)]
      exact hlive

end Run

/-! ## A run with a restart -/

/-- The directory that stands at any path is the `k`-th one created there. -/
def newDir (k : Nat) : World := ⟨fun _ => some true, fun _ => none, fun _ => some k, fun _ => 0⟩

def created : Event := ⟨1, inCreate, [120]⟩

def oneLevel : Config := ⟨[116, 47], none, false⟩

def newDirs (n : Nat) : List Action :=
  (List.range n).map fun k => .event created (newDir (k + 1)) (newDir 0)

section NewDirs
variable {s : Notify} {k : Nat}

theorem created_newDir (s : Notify) (k : Nat) : Created (newDir k) created s :=
  ⟨by decide, rfl, by decide⟩

theorem dirs_check_newDir (s : Notify) (k : Nat) :
    dirs_check (newDir k) pathMax 0 (.buf (s.avpath created)) false s.dirent =
      some (1, Function.update s.dirent 0 (s.avpath created)) := rfl

theorem handle_newDir (s : Notify) (k : Nat) : handle false (newDir k) created s =
    enterAll (newDir k) (s.avpath created) [s.avpath created]
      { leave 1 s with dirent := Function.update s.dirent 0 (s.avpath created) } := by
  rw [handle_created (created_newDir s k)]
  unfold dirEvent
  rw [dirs_check_newDir, Option.elim_some]
  simp [found, created]

theorem domain_newDir (htop : s.getwdir 1 = oneLevel.topdir) (k : Nat) (w' : World) :
    Domain oneLevel s (.event created (newDir k) w') := by
  intro _
  constructor
  · change (s.getwdir 1 ++ [120]).length < pathMax
    rw [htop]
    decide
  · intro r hr p hp
    cases (dirs_check_newDir s k).symm.trans hr
    left
    simpa [found] using hp

/-- A directory that was not there before gets the next descriptor. -/
theorem enter_newDir (hfresh : ∀ d m, s.ino.watch d = some m → d.gen ≤ k) (p r : Path) :
    ∃ t, enter (newDir (k + 1)) p r s = some t ∧ t.ino.next = s.ino.next + 1 ∧
      t.curdir = s.ino.next ∧ (∀ d m, t.ino.watch d = some m → d.gen ≤ k + 1) ∧
      t.wdirs = Function.update s.wdirs (row s.ino.next) r := by
  have hnew : s.ino.watch ⟨parts p, k + 1⟩ = none := by
    cases hw : s.ino.watch ⟨parts p, k + 1⟩ with
    | none => rfl
    | some m =>
      have hle := hfresh _ m hw
      exact absurd hle (Nat.not_succ_le_self k)
  obtain ⟨t, ht⟩ := Option.isSome_iff_exists.mp
    (enter_isSome (w := newDir (k + 1)) (p := p) (r := r) (s := s) rfl)
  refine ⟨t, ht, ?_⟩
  obtain ⟨g, n, i, hg, hreg, rfl⟩ := enter_cases ht
  obtain rfl : k + 1 = g := Option.some.inj hg
  cases hreg with
  | old hold =>
    rw [hnew] at hold
    cases hold
  | new =>
    refine ⟨rfl, rfl, ?_, rfl⟩
    intro d m hm
    by_cases hd : d = ⟨parts p, k + 1⟩
    · rw [hd]
    · exact Nat.le_succ_of_le (hfresh d m (by simpa [Function.update_of_ne hd] using hm))

/-- After `n` new directories. -/
structure Grown (n : Nat) (s : Notify) : Prop where
  next : s.ino.next = n + 2
  curdir : s.curdir = n + 1
  fresh : ∀ d m, s.ino.watch d = some m → d.gen ≤ n
  topdir : s.getwdir 1 = oneLevel.topdir

theorem Grown.handed {n : Nat} (h : Grown n s) : 0 < created.wd ∧ created.wd < s.ino.next := by
  rw [h.next]
  change (0 : Int) < 1 ∧ (1 : Int) < _
  omega

theorem Grown.handle {n : Nat} (h : Grown n s) (hn : n + 1 < maxDirs) : ∃ t,
    handle oneLevel.sdirflag (newDir (n + 1)) created s = .next t none ∧ Grown (n + 1) t := by
  obtain ⟨t, ht, hnext, hcur, hgen, hwdirs⟩ := @enter_newDir
    { leave 1 s with dirent := Function.update s.dirent 0 (s.avpath created) } n
    (fun d m hm => h.fresh d m (leave_watch.mp hm).1) (s.avpath created) (fformat (s.avpath created))
  have hex : isExhaust s.curdir = false := by
    rw [h.curdir]
    simp only [isExhaust, decide_eq_false_iff_not]
    omega
  simp only [leave_next, leave_wdirs, h.next] at hnext hcur hwdirs
  refine ⟨t, ?_, hnext, by rw [hcur]; push_cast; omega, hgen, ?_⟩
  · change Inotifylib.handle false _ _ _ = _
    rw [handle_newDir]
    unfold enterAll
    rw [if_neg (by simp [hex]), ht]
    rfl
  · -- the first row is not the one that is written
    have hrow : row 1 ≠ row ((n + 2 : Nat) : Int) := by
      intro heq
      have heq' := row_inj (m := 1) (n := n + 2) ⟨le_refl 1, by omega⟩ ⟨by omega, by omega⟩ heq
      omega
    unfold Notify.getwdir
    rw [hwdirs, Function.update_of_ne hrow]
    exact h.topdir

theorem Grown.step {n : Nat} (h : Grown n s) (hn : n + 1 < maxDirs) : ∃ t,
    step oneLevel s (.event created (newDir (n + 1)) (newDir 0)) = some t ∧ Grown (n + 1) t := by
  obtain ⟨t, ht, hgrown⟩ := h.handle hn
  refine ⟨t, ?_, hgrown⟩
  simp only [Inotifylib.step, if_pos h.handed, ht]

theorem newDirs_succ (n : Nat) :
    newDirs (n + 1) = newDirs n ++ [.event created (newDir (n + 1)) (newDir 0)] := by
  simp [newDirs, List.range_succ]

theorem exec_newDirs (h : Grown 0 s) {n : Nat} (hn : n < maxDirs) :
    ∃ t, Machine.exec (step oneLevel) s (newDirs n) = some t ∧ Grown n t ∧
      Machine.Along (step oneLevel) (Domain oneLevel) s (newDirs n) := by
  induction n with
  | zero => exact ⟨s, rfl, h, Machine.along_nil⟩
  | succ n ih =>
    obtain ⟨t, ht, hgrown, hdom⟩ := ih (by omega)
    obtain ⟨u, hu, hgrown'⟩ := hgrown.step hn
    rw [newDirs_succ]
    exact ⟨u, Machine.exec_snoc_iff.mpr ⟨t, ht, hu⟩, hgrown',
      (Machine.along_snoc_iff ht).mpr ⟨hdom, domain_newDir hgrown.topdir _ _⟩⟩

/-- The event that finds the last row taken. -/
theorem handle_newDir_last (hcur : s.curdir = maxDirs) (k : Nat) :
    ∃ t avpath, handle false (newDir k) created s = .resetting t avpath := by
  rw [handle_newDir]
  unfold enterAll
  rw [if_pos (by simp [hcur, isExhaust, maxDirs])]
  exact ⟨_, _, rfl⟩

end NewDirs

def firstNotify : Notify :=
  { Notify.zero with
    ino := (Inotify.init.add_watch ⟨parts oneLevel.topdir, 0⟩).2
    curdir := 1
    wdirs := Function.update (fun _ => []) (row 1) oneLevel.topdir }

theorem start_newDir : start oneLevel (newDir 0) = some firstNotify := rfl

theorem grown_firstNotify : Grown 0 firstNotify := by
  refine ⟨rfl, rfl, fun d m hm => ?_, by simp [Notify.getwdir, firstNotify]⟩
  by_cases hd : d = ⟨parts oneLevel.topdir, 0⟩
  · rw [hd]
  · have hnone : firstNotify.ino.watch d = none := Function.update_of_ne hd _ _
    rw [hnone] at hm
    cases hm

/-- The table is full after 2880 new directories `t/x`. The next one leads to a restart, which goes
down to it again. -/
theorem event_paths_right_newDirs : ∃ n s₀ s u avpath t, n + 1 = maxDirs ∧
    start oneLevel (newDir 0) = some s₀ ∧ Machine.exec (step oneLevel) s₀ (newDirs n) = some s ∧
    (∀ (m : Nat) d, s.ino.dirOf m = some d →
      parts (s.getwdir m) = d.path ∧ EndsSlash (s.getwdir m)) ∧
    handle oneLevel.sdirflag (newDir (n + 1)) created s = .resetting u avpath ∧
    step oneLevel s (.event created (newDir (n + 1)) (newDir 0)) = some t ∧
    (∃ m g : Nat, t.curdir = m ∧ t.ino.dirOf m = some ⟨[[116], [120]], g⟩) ∧
    parts (t.getwdir t.curdir) = [[116], [120]] ∧ Linked oneLevel.topdir (newDir 0).live t := by
  obtain ⟨n, hn⟩ : ∃ n, n + 1 = maxDirs := ⟨2880, rfl⟩
  obtain ⟨s, hs, hgrown, hdom⟩ := exec_newDirs grown_firstNotify (n := n) (by omega)
  have havpath : parts (s.avpath created) = [[116], [120]] := by
    change parts (s.getwdir 1 ++ [120]) = _
    rw [hgrown.topdir]
    decide
  have hcur : s.curdir = maxDirs := by
    rw [hgrown.curdir]
    omega
  obtain ⟨u, avpath, hu⟩ := handle_newDir_last hcur (n + 1)
  obtain ⟨hnamed, _, hrestart⟩ :=
    event_paths_right oneLevel (by decide) (by decide) start_newDir hdom hs
  obtain ⟨hafter, hgoes⟩ := hrestart created (newDir (n + 1)) (newDir 0) u avpath
    (domain_newDir hgrown.topdir _ _) hgrown.handed hu
  obtain ⟨t, ht⟩ := Option.isSome_iff_exists.mp (hgoes fun _ _ _ => rfl)
  obtain ⟨⟨m, g, hcurdir, hdir, _⟩, hparts, hlinked⟩ := hafter t ht
  rw [havpath] at hdir hparts
  exact ⟨n, _, s, u, avpath, t, hn, start_newDir, hs, hnamed, hu, ht, ⟨m, g, hcurdir, hdir⟩, hparts,
    hlinked⟩

end JitDt.Inotifylib
