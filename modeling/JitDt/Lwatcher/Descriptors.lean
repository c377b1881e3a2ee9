import JitDt.Lwatcher.System

/-!
# The descriptors of a connection

Every command of a connection leaves the inner loop of `transfer` in its own way. Only
`CMD_GET` closes the socket, and it overwrites the `tfd` of an earlier `CMD_OPEN`;
`CMD_CLOSE` closes `tfd` and keeps the socket, and the end of the stream closes nothing.
-/

namespace JitDt.Lwatcher

set_option autoImplicit false

open Misclib Jitcclient Machine

/-- A command that keeps the connection; `open` with the result of the system call. -/
inductive Command where
  | open (fd : Option Nat)
  | read
  | unknown
deriving DecidableEq

/-- The command that ends it; `get` with the results of `open` for the files of the entry,
`exit` also when the client is gone. -/
inductive Last where
  | get (fds : List (Option Nat))
  | close
  | exit

/-- What `transfer` has in `sock` and `tfd`, and the open descriptors of the connection. -/
structure Descriptors where
  sock : Nat
  tfd : Int
  fds : List Nat

namespace Descriptors

def accepted (sock : Nat) : Descriptors := ⟨sock, -1, [sock]⟩

def close (d : Descriptors) (fd : Int) : Descriptors := { d with fds := d.fds.erase fd.toNat }

def opened (d : Descriptors) : Option Nat → Descriptors
  | some fd => { d with tfd := fd, fds := fd :: d.fds }
  | none => { d with tfd := -1 }

def step (d : Descriptors) : Command → Descriptors
  | .open fd => d.opened fd
  | .read => d
  | .unknown => d

/-- One file of the entry: a descriptor greater than 0 is read from and closed. -/
def packed (d : Descriptors) (fd : Option Nat) : Descriptors :=
  if 0 < (d.opened fd).tfd then (d.opened fd).close (d.opened fd).tfd else d.opened fd

def leave (d : Descriptors) : Last → Descriptors
  | .get fds => (fds.foldl packed d).close d.sock
  | .close => if 0 ≤ d.tfd then { d.close d.tfd with tfd := -1 } else d
  | .exit => d

end Descriptors

open Descriptors

/-- From `accept` until `transfer` is back there. -/
def connection (sock : Nat) (cmds : List Command) (last : Last) : Descriptors :=
  (cmds.foldl Descriptors.step (accepted sock)).leave last

def Command.opens : Command → Bool
  | .open (some _) => true
  | _ => false

/-! ## Counting what stays open -/

theorem fds_packed (d : Descriptors) (fd : Option Nat) :
    (d.packed fd).fds = if fd = some 0 then 0 :: d.fds else d.fds := by
  cases fd with
  | none => rfl
  | some fd =>
    cases fd with
    | zero => rfl
    | succ fd =>
      have hpos : (0 : Int) < (fd + 1 : Nat) := by omega
      have hne : some (fd + 1) ≠ some 0 := by simp
      simp only [Descriptors.packed, Descriptors.opened, if_pos hpos, if_neg hne,
        Descriptors.close, Int.toNat_natCast, List.erase_cons_head]

theorem length_packed (fds : List (Option Nat)) (d : Descriptors) :
    (fds.foldl Descriptors.packed d).fds.length = d.fds.length + fds.count (some 0) := by
  induction fds generalizing d with
  | nil => rfl
  | cons fd fds ih =>
    rw [List.foldl_cons, ih, fds_packed]
    by_cases hz : fd = some 0
    · rw [if_pos hz, hz, List.count_cons_self, List.length_cons]
      omega
    · rw [if_neg hz, List.count_cons_of_ne hz]

theorem fds_packed_of_not_mem {fds : List (Option Nat)} (h : some 0 ∉ fds) (d : Descriptors) :
    (fds.foldl Descriptors.packed d).fds = d.fds := by
  induction fds generalizing d with
  | nil => rfl
  | cons fd fds ih =>
    rw [List.mem_cons, not_or] at h
    rw [List.foldl_cons, ih h.2, fds_packed, if_neg fun heq => h.1 heq.symm]

theorem length_steps (cmds : List Command) (d : Descriptors) :
    (cmds.foldl Descriptors.step d).fds.length = d.fds.length + cmds.countP Command.opens := by
  induction cmds generalizing d with
  | nil => rfl
  | cons cmd cmds ih =>
    rw [List.foldl_cons, ih, List.countP_cons]
    cases cmd with
    | «open» fd =>
      cases fd with
      | none => rfl
      | some fd =>
        have hopens : (Command.open (some fd)).opens = true := rfl
        change (fd :: d.fds).length + _ = _
        rw [List.length_cons, if_pos hopens]
        omega
    | read => rfl
    | unknown => rfl

theorem sock_steps (cmds : List Command) (d : Descriptors) :
    (cmds.foldl Descriptors.step d).sock = d.sock := by
  induction cmds generalizing d with
  | nil => rfl
  | cons cmd cmds ih =>
    rw [List.foldl_cons, ih]
    cases cmd with
    | «open» fd => cases fd <;> rfl
    | read => rfl
    | unknown => rfl

theorem step_of_not_opens {cmd : Command} (h : cmd.opens = false) (d : Descriptors) :
    (d.step cmd).fds = d.fds ∧ (d.tfd < 0 → (d.step cmd).tfd < 0) := by
  cases cmd with
  | «open» fd =>
    cases fd with
    | none => exact ⟨rfl, fun _ => Int.negSucc_lt_zero 0⟩
    | some fd => cases h
  | read => exact ⟨rfl, id⟩
  | unknown => exact ⟨rfl, id⟩

/-- Without a successful OPEN the socket is all there is, and `tfd` is no descriptor. -/
theorem steps_of_not_opens {cmds : List Command} (h : cmds.countP Command.opens = 0)
    (d : Descriptors) : (cmds.foldl Descriptors.step d).fds = d.fds ∧
      (d.tfd < 0 → (cmds.foldl Descriptors.step d).tfd < 0) := by
  induction cmds generalizing d with
  | nil => exact ⟨rfl, id⟩
  | cons cmd cmds ih =>
    rw [List.countP_cons] at h
    have hcmd : cmd.opens = false := by
      by_contra hopen
      rw [Bool.not_eq_false] at hopen
      rw [if_pos hopen] at h
      omega
    obtain ⟨hfds, htfd⟩ := step_of_not_opens hcmd d
    obtain ⟨hfds', htfd'⟩ := ih (by omega) (d.step cmd)
    exact ⟨hfds'.trans hfds, fun hd => htfd' (htfd hd)⟩

theorem length_close (d : Descriptors) (fd : Int) : d.fds.length ≤ (d.close fd).fds.length + 1 := by
  change d.fds.length ≤ (d.fds.erase fd.toNat).length + 1
  rw [List.length_erase]
  split <;> omega

/-- Nothing of the connection stays open if and only if it ends with a GET, no OPEN on it
succeeded, and no file of the GET got descriptor 0. -/
theorem connection_closed_iff (sock : Nat) (cmds : List Command) (last : Last) :
    (connection sock cmds last).fds = [] ↔
      (∀ fd, Command.open (some fd) ∉ cmds) ∧ ∃ fds, last = .get fds ∧ some 0 ∉ fds := by
  have hcount : cmds.countP Command.opens = 0 ↔ ∀ fd, Command.open (some fd) ∉ cmds := by
    rw [List.countP_eq_zero]
    constructor
    · intro hall fd hmem
      exact hall _ hmem rfl
    · intro hall cmd hmem hopen
      cases cmd with
      | «open» fd =>
        cases fd with
        | none => cases hopen
        | some fd => exact hall fd hmem
      | read => cases hopen
      | unknown => cases hopen
  have hlen := length_steps cmds (accepted sock)
  have hone : (accepted sock).fds.length = 1 := rfl
  rw [← hcount]
  constructor
  · intro hnil
    have hzero := congrArg List.length hnil
    rw [List.length_nil] at hzero
    cases last with
    | get fds =>
      have hpack := length_packed fds (cmds.foldl Descriptors.step (accepted sock))
      have hclose := length_close (fds.foldl Descriptors.packed
        (cmds.foldl Descriptors.step (accepted sock))) (cmds.foldl Descriptors.step (accepted sock)).sock
      change ((fds.foldl Descriptors.packed (cmds.foldl Descriptors.step (accepted sock))).close
        (cmds.foldl Descriptors.step (accepted sock)).sock).fds.length = 0 at hzero
      refine ⟨by omega, fds, rfl, ?_⟩
      exact List.count_eq_zero.mp (by omega)
    | close =>
      exfalso
      simp only [connection, Descriptors.leave] at hzero
      by_cases hneg : cmds.countP Command.opens = 0
      · have htfd := (steps_of_not_opens hneg (accepted sock)).2 (Int.negSucc_lt_zero 0)
        rw [if_neg (not_le.mpr htfd)] at hzero
        omega
      · have hclose := length_close (cmds.foldl Descriptors.step (accepted sock))
          (cmds.foldl Descriptors.step (accepted sock)).tfd
        split at hzero
        · change ((cmds.foldl Descriptors.step (accepted sock)).close _).fds.length = 0 at hzero
          omega
        · omega
    | exit =>
      exfalso
      change (cmds.foldl Descriptors.step (accepted sock)).fds.length = 0 at hzero
      omega
  · rintro ⟨hnone, fds, rfl, hmem⟩
    change ((fds.foldl Descriptors.packed _).close _).fds = []
    unfold Descriptors.close
    rw [fds_packed_of_not_mem hmem, (steps_of_not_opens hnone _).1, sock_steps]
    exact List.erase_cons_head sock []

/-! ## The connections of lwatcher -/

/-- The state of `transfer` during a connection, with what earlier connections left open. -/
structure Follows (old : List Nat) (s : State) (d : Descriptors) : Prop where
  sock : d.sock = s.sock
  tfd : d.tfd = s.tfd.elim (-1) fun fd => (fd : Int)
  fds : s.fds = d.fds ++ old
  sock_mem : d.sock ∈ d.fds
  tfd_mem : ∀ fd, s.tfd = some fd → fd ∈ d.fds

def commandOf : Label → List Command
  | .openReply fd => [.open fd]
  | .command .read _ => [.read]
  | .command .status _ => [.unknown]
  | .command .reply _ => [.unknown]
  | _ => []

/-- The command that the step back to `accept` completes. -/
def lastOf (s : State) : Last :=
  match s.pc with
  | .serve _ _ => .get []
  | .histremove .get => .get []
  | .histremove _ => .close
  | _ => .exit

theorem Follows.same {old : List Nat} {s t : State} {d : Descriptors} (h : Follows old s d)
    (hsock : t.sock = s.sock) (htfd : t.tfd = s.tfd) (hfds : t.fds = s.fds) : Follows old t d where
  sock := by rw [hsock]; exact h.sock
  tfd := by rw [htfd]; exact h.tfd
  fds := by rw [hfds]; exact h.fds
  sock_mem := h.sock_mem
  tfd_mem := by rw [htfd]; exact h.tfd_mem

theorem follows_accepted (s : State) (sock : Nat) :
    Follows s.fds { s with sock := sock, tfd := none, fds := sock :: s.fds, pc := .command }
      (accepted sock) where
  sock := rfl
  tfd := rfl
  fds := rfl
  sock_mem := List.mem_singleton_self sock
  tfd_mem := fun fd hfd => by cases hfd

theorem Follows.opened {old : List Nat} {s : State} {d : Descriptors} (h : Follows old s d)
    (fd : Nat) : Follows old { s with tfd := some fd, fds := fd :: s.fds, pc := .command }
      (d.opened (some fd)) where
  sock := h.sock
  tfd := rfl
  fds := congrArg (fd :: ·) h.fds
  sock_mem := List.mem_cons_of_mem fd h.sock_mem
  tfd_mem := by
    intro fd' hfd
    cases hfd
    exact List.mem_cons_self

theorem Follows.notOpened {old : List Nat} {s : State} {d : Descriptors} (h : Follows old s d) :
    Follows old { s with tfd := none, pc := .command } (d.opened none) where
  sock := h.sock
  tfd := rfl
  fds := h.fds
  sock_mem := h.sock_mem
  tfd_mem := fun fd hfd => by cases hfd

/-- A step within a connection does to the descriptors what its command says. -/
theorem Follows.step {old : List Nat} {s t : State} {d : Descriptors} {l : Label}
    (h : Follows old s d) (hpc : s.pc ≠ .accept) (hstep : Lwatcher.step s l = some t)
    (hstay : t.pc ≠ .accept) : Follows old t ((commandOf l).foldl Descriptors.step d) := by
  cases step_cases hstep with
  | histput path dt tent r hr => exact h.same rfl rfl rfl
  | accept sock hacc => exact absurd hacc hpc
  | command cmd opt hcmd => cases cmd <;> exact h.same rfl rfl rfl
  | histget req res _ _ =>
    obtain ⟨r, hp⟩ := res
    cases hp <;> exact h.same rfl rfl rfl
  | histgetWake req res _ _ =>
    obtain ⟨r, hp⟩ := res
    cases hp <;> exact h.same rfl rfl rfl
  | test req hp s' _ ht => cases test_cases ht <;> exact h.same rfl rfl rfl
  | histwait req _ => exact h.same rfl rfl rfl
  | histwaitWake req r _ _ => exact h.same rfl rfl rfl
  | opened fname fd _ => exact h.opened fd
  | notOpened fname _ => exact h.notOpened
  | getReply files heap sent opt hp s' _ hrep =>
    obtain ⟨⟨n, r⟩, _, hrep⟩ := Option.bind_eq_some_iff.mp hrep
    cases r with
    | none =>
      cases hrep
      exact h.same rfl rfl rfl
    | some r =>
      cases sent with
      | true =>
        cases hrep
        exact h.same rfl rfl rfl
      | false =>
        cases hrep
        exact absurd rfl hstay
  | histremove cmd r _ _ => exact absurd (pc_removed s cmd r) hstay

/-- The step that ends a connection closes what its last command closes. -/
theorem Follows.leave {old : List Nat} {s t : State} {d : Descriptors} {l : Label}
    (h : Follows old s d) (hpc : s.pc ≠ .accept) (hstep : Lwatcher.step s l = some t)
    (hleave : t.pc = .accept) : t.fds = (d.leave (lastOf s)).fds ++ old := by
  have hsock : s.fds.erase s.sock = d.fds.erase d.sock ++ old := by
    rw [h.fds, ← h.sock, List.erase_append_left _ h.sock_mem]
  cases step_cases hstep with
  | histput path dt tent r hr => exact absurd hleave hpc
  | accept sock hacc => exact absurd hacc hpc
  | command cmd opt hcmd =>
    unfold lastOf
    rw [hcmd]
    cases cmd with
    | exit => exact h.fds
    | «open» | close | get => cases hleave
    | read | status | reply => exact absurd (hcmd.symm.trans hleave) (by simp)
  | histget req res _ _ =>
    obtain ⟨r, hp⟩ := res
    cases hp <;> cases hleave
  | histgetWake req res _ _ =>
    obtain ⟨r, hp⟩ := res
    cases hp <;> cases hleave
  | test req hp s' _ ht => cases test_cases ht <;> cases hleave
  | histwait req _ => cases hleave
  | histwaitWake req r _ _ => cases hleave
  | opened fname fd _ => cases hleave
  | notOpened fname _ => cases hleave
  | getReply files heap sent opt hp s' hserve hrep =>
    obtain ⟨⟨n, r⟩, _, hrep⟩ := Option.bind_eq_some_iff.mp hrep
    unfold lastOf
    rw [hserve]
    cases r with
    | none =>
      cases hrep
      cases hleave
    | some r =>
      cases sent with
      | true =>
        cases hrep
        cases hleave
      | false =>
        cases hrep
        change s.fds.erase s.sock = d.fds.erase _ ++ old
        rw [Int.toNat_natCast]
        exact hsock
  | histremove cmd r hrem _ =>
    unfold lastOf
    rw [hrem]
    cases cmd with
    | get =>
      change s.fds.erase s.sock = d.fds.erase _ ++ old
      rw [Int.toNat_natCast]
      exact hsock
    | _ =>
      change (s.removed _ r).fds = (d.leave .close).fds ++ old
      unfold State.removed Descriptors.leave
      rw [h.tfd]
      cases htfd : s.tfd with
      | none => exact h.fds
      | some fd =>
        change s.fds.erase fd = (d.fds.erase _) ++ old
        rw [h.fds, List.erase_append_left _ (h.tfd_mem fd htfd)]
        rfl

/-- The step does not bring `transfer` back to `accept`. -/
def Stays (s : State) (l : Label) : Prop := ∀ t, Lwatcher.step s l = some t → t.pc ≠ .accept

/-- Whatever the two threads do in between, a connection of lwatcher adds to the open
descriptors exactly what `connection` leaves. -/
theorem connection_of_run {s₀ s t u : State} {sock : Nat} {ls : List Label} {l : Label}
    (hacc : Lwatcher.step s₀ (.accept sock) = some s) (hrun : exec Lwatcher.step s ls = some t)
    (hstay : Along Lwatcher.step Stays s ls) (hlast : Lwatcher.step t l = some u)
    (hleave : u.pc = .accept) :
    u.fds = (connection sock (ls.flatMap commandOf) (lastOf t)).fds ++ s₀.fds := by
  have hstart : Follows s₀.fds s (accepted sock) ∧ s.pc ≠ .accept := by
    cases step_cases hacc with
    | accept _ _ => exact ⟨follows_accepted s₀ sock, fun h => by cases h⟩
  have hall : Follows s₀.fds t (ls.foldl (fun d l => (commandOf l).foldl Descriptors.step d)
      (accepted sock)) ∧ t.pc ≠ .accept := by
    refine exec_simulation (R := fun s d => Follows s₀.fds s d ∧ s.pc ≠ .accept) (C := Stays)
      ?_ hstart hstay hrun
    rintro s d l t ⟨hfollows, hpc⟩ hstays hstep
    exact ⟨hfollows.step hpc hstep (hstays t hstep), hstays t hstep⟩
  rw [← List.foldl_flatMap] at hall
  exact hall.1.leave hall.2 hlast hleave

/-- A client that opens, reads and closes leaves the socket open. -/
theorem connection_closed_fails : (connection 4 [.open (some 5), .read] .close).fds = [4] := by
  decide

end JitDt.Lwatcher
