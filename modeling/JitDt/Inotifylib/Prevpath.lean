import JitDt.Inotifylib.Events
import JitDt.Inotifylib.Paths

/-!
# The path that is kept

`prevpath` is written for a file that is due and stays through everything else, a restart included.
No path of an event is the empty one that stands for none, because every row that is in use was
written with a path.
-/

namespace JitDt.Inotifylib

set_option autoImplicit false

open PathName (dot)

/-- A file has been closed or moved, and it is not a temporary one. -/
def Eligible (w : World) (e : Event) (s : Notify) : Prop :=
  e.mask &&& inIgnored = 0 ∧ w.stat (s.avpath e) = some false ∧
    e.mask &&& (inCloseWrite ||| inMovedTo) ≠ 0 ∧ e.name.head? ≠ some dot

/-- A descriptor that was handed out has a row with a path. -/
def Rows (s : Notify) : Prop :=
  ∀ n : Nat, 1 ≤ n → n < s.ino.next → s.wdirs (row n) ≠ []

section Prevpath
variable {w : World} {e : Event} {s t : Notify} {p r avpath topdir sp : Path} {ps : List Path}
  {sdirflag : Bool}

theorem due_iff : Due w e s ↔ Eligible w e s ∧ s.avpath e ≠ s.prevpath := by
  unfold Due Eligible
  simp only [and_assoc]

theorem fformat_ne_nil (p : Path) : fformat p ≠ [] := by
  unfold fformat
  split
  · exact List.append_ne_nil_of_right_ne_nil p (List.cons_ne_nil _ _)
  · rename_i h
    rintro rfl
    exact h (by simp)

theorem enter_rows (h : Rows s) (hr : r ≠ []) (ht : enter w p r s = some t) :
    Rows t ∧ t.prevpath = s.prevpath := by
  obtain ⟨g, n, i, -, hreg, rfl⟩ := enter_cases ht
  refine ⟨?_, rfl⟩
  intro m hm hlt
  by_cases hrow : row m = row n
  · change Function.update s.wdirs (row n) r (row m) ≠ []
    rw [hrow, Function.update_self]
    exact hr
  · change Function.update s.wdirs (row n) r (row m) ≠ []
    rw [Function.update_of_ne hrow]
    apply h m hm
    cases hreg with
    | old hold => exact hlt
    | new hnew =>
      have hne : m ≠ s.ino.next := by
        rintro rfl
        exact hrow rfl
      change m < s.ino.next + 1 at hlt
      omega

theorem enterAll_rows (h : Rows s) :
    Rows (enterAll w avpath ps s).state ∧
      (enterAll w avpath ps s).state.prevpath = s.prevpath := by
  induction ps generalizing s with
  | nil => exact ⟨h, rfl⟩
  | cons p ps ih =>
    unfold enterAll
    split
    · exact ⟨h, rfl⟩
    · split
      · exact ⟨h, rfl⟩
      · rename_i u hu
        obtain ⟨hrows, hprev⟩ := enter_rows h (fformat_ne_nil p) hu
        rw [← hprev]
        exact ih hrows

theorem descend_rows {k : Nat} (h : Rows s) (ht : descend w k sp s = some t) :
    Rows t ∧ t.prevpath = s.prevpath := by
  induction k generalizing sp s with
  | zero => cases ht
  | succ k ih =>
    unfold descend at ht
    split at ht
    · cases ht
      exact ⟨h, rfl⟩
    · obtain ⟨u, hu, ht⟩ := Option.bind_eq_some_iff.mp ht
      obtain ⟨hrows, hprev⟩ := enter_rows h (fformat_ne_nil _) hu
      rw [← hprev]
      exact ih hrows ht

theorem restart_rows (htop : topdir ≠ []) {startdir : Option Path}
    (ht : restart topdir w startdir s = some t) :
    Rows t ∧ t.prevpath = s.prevpath := by
  obtain ⟨u, hu, ht⟩ := Option.bind_eq_some_iff.mp ht
  have hinit : Rows (reset_watch { s with ino := .init }) := by
    intro n hn hlt
    rw [reset_watch_init] at hlt
    exact absurd hlt (Nat.not_lt.mpr hn)
  obtain ⟨hrows, hprev⟩ := enter_rows hinit htop hu
  have hprev : u.prevpath = s.prevpath := hprev
  cases startdir with
  | none =>
    cases ht
    exact ⟨hrows, hprev⟩
  | some sp =>
    rw [← hprev]
    exact descend_rows hrows ht

theorem avpath_ne_nil (h : Rows s) (hwd : 0 < e.wd ∧ e.wd < s.ino.next) : s.avpath e ≠ [] := by
  obtain ⟨n, hn⟩ := Int.eq_ofNat_of_zero_le hwd.1.le
  have hrow : s.getwdir e.wd ≠ [] := by
    rw [hn]
    exact h n (by omega) (by omega)
  exact List.append_ne_nil_of_left_ne_nil hrow _

theorem leave_rows (h : Rows s) (wd : Int) :
    Rows (leave wd s) ∧ (leave wd s).prevpath = s.prevpath := by
  constructor
  · intro n hn hlt
    rw [leave_next] at hlt
    rw [leave_wdirs]
    exact h n hn hlt
  · unfold leave
    split <;> rfl

/-- Only a file that is due changes the path. -/
theorem handle_rows (h : Rows s) : Rows (handle sdirflag w e s).state ∧
    (handle sdirflag w e s).state.prevpath =
      if Due w e s then if w.func (s.avpath e) = 1 then s.avpath e else []
      else s.prevpath := by
  by_cases hdue : Due w e s
  · rw [handle_due hdue, if_pos hdue]
    exact ⟨h, rfl⟩
  rw [if_neg hdue]
  by_cases hc : Created w e s
  · rw [handle_created hc]
    obtain ⟨hrows, hprev⟩ := leave_rows h e.wd
    rcases @dirEvent_cases w s (s.avpath e) sdirflag e.wd _ rfl with ⟨-, ho⟩ | ⟨q, -, ho⟩
    · rw [ho]
      exact ⟨hrows, hprev⟩
    · rw [← ho, ← hprev]
      exact @enterAll_rows w { leave e.wd s with dirent := q.2 } (s.avpath e) _ hrows
  · rw [handle_passed hdue hc]
    exact ⟨h, rfl⟩

end Prevpath

end JitDt.Inotifylib
