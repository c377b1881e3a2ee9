import Mathlib

/-!
# Stream sockets with partial reads and writes

A `Source` delivers the bytes its peer sent, a `Sink` takes the bytes for the
peer. `caps` decides how much each single call transfers: call number `i` moves at
most `caps i + 1` bytes, so every fragmentation into positive pieces is one choice
of `caps`.
-/

namespace JitDt

set_option autoImplicit false

inductive Ending where
  | eof
  | error

structure Source where
  pending : List UInt8
  caps : Nat → Nat
  ending : Ending

structure Sink where
  sent : List UInt8
  caps : Nat → Nat
  /-- The number of bytes the connection still takes before it breaks, if it ever does. -/
  room : Option Nat

namespace Source

/-- `read(2)`: `none` is a negative result, no bytes at all the end of the stream. -/
def recv (s : Source) (n : Nat) : Option (List UInt8) × Source :=
  if n = 0 then (some [], s)
  else
    match s.pending with
    | [] =>
      match s.ending with
      | .eof => (some [], s)
      | .error => (none, s)
    | _ :: _ =>
      let k := min n (s.caps 0 + 1)
      (some (s.pending.take k),
        { s with pending := s.pending.drop k, caps := fun i => s.caps (i + 1) })

theorem recv_of_pos {s : Source} {n : Nat} (hn : 0 < n) (hp : s.pending ≠ []) :
    ∃ k s', 0 < k ∧ k ≤ n ∧ k ≤ s.pending.length ∧ s.recv n = (some (s.pending.take k), s') ∧
      s'.pending = s.pending.drop k ∧ s'.ending = s.ending := by
  have hlen : 0 < s.pending.length := List.length_pos_iff.mpr hp
  have hrecv : s.recv n = (some (s.pending.take (min n (s.caps 0 + 1))),
      ⟨s.pending.drop (min n (s.caps 0 + 1)), fun i => s.caps (i + 1), s.ending⟩) := by
    unfold recv
    rw [if_neg (by omega)]
    cases hs : s.pending with
    | nil => exact absurd hs hp
    | cons b bs => rfl
  refine ⟨min (min n (s.caps 0 + 1)) s.pending.length,
    ⟨s.pending.drop (min n (s.caps 0 + 1)), fun i => s.caps (i + 1), s.ending⟩,
    by omega, by omega, by omega, ?_, List.drop_eq_drop_min, rfl⟩
  rw [hrecv, ← List.take_eq_take_min]

theorem recv_of_le {s : Source} {n : Nat} (hn : 0 < n) (h : n ≤ s.pending.length) :
    ∃ k s', 0 < k ∧ k ≤ n ∧ s.recv n = (some (s.pending.take k), s') ∧
      s'.pending = s.pending.drop k ∧ s'.ending = s.ending := by
  have hp : s.pending ≠ [] := by
    rintro he
    rw [he] at h
    simp at h
    omega
  obtain ⟨k, s', hk, hkn, _, hrecv, hrest⟩ := recv_of_pos hn hp
  exact ⟨k, s', hk, hkn, hrecv, hrest⟩

theorem recv_end {s : Source} {n : Nat} (hn : 0 < n) (hp : s.pending = []) :
    s.recv n = match s.ending with
      | .eof => (some [], s)
      | .error => (none, s) := by
  unfold recv
  rw [if_neg (by omega), hp]

end Source

namespace Sink

/-- `send(2)`: how many bytes were taken, `none` is a negative result. -/
def send (s : Sink) (bs : List UInt8) : Option Nat × Sink :=
  if bs = [] then (some 0, s)
  else
    match s.room with
    | none =>
      let k := min bs.length (s.caps 0 + 1)
      (some k, { s with sent := s.sent ++ bs.take k, caps := fun i => s.caps (i + 1) })
    | some 0 => (none, s)
    | some (r + 1) =>
      let k := min (min bs.length (s.caps 0 + 1)) (r + 1)
      (some k, ⟨s.sent ++ bs.take k, fun i => s.caps (i + 1), some (r + 1 - k)⟩)

/-- The connection takes `n` more bytes. -/
def Takes (s : Sink) (n : Nat) : Prop := ∀ r, s.room = some r → n ≤ r

theorem takes_of_room {s : Sink} (h : s.room = none) (n : Nat) : s.Takes n := by
  intro r hr
  rw [h] at hr
  cases hr

theorem send_of_takes {s : Sink} {bs : List UInt8} (ht : s.Takes bs.length) (hbs : bs ≠ []) :
    ∃ k s', 0 < k ∧ k ≤ bs.length ∧ s.send bs = (some k, s') ∧ s'.sent = s.sent ++ bs.take k ∧
      s'.Takes (bs.length - k) ∧ (s.room = none → s'.room = none) := by
  have hlen : 0 < bs.length := List.length_pos_iff.mpr hbs
  unfold send
  rw [if_neg hbs]
  cases hroom : s.room with
  | none =>
    refine ⟨min bs.length (s.caps 0 + 1), _, by omega, by omega, rfl, rfl, ?_, fun _ => rfl⟩
    exact takes_of_room rfl _
  | some r =>
    have hr := ht r hroom
    obtain ⟨r, rfl⟩ : ∃ r', r = r' + 1 := ⟨r - 1, by omega⟩
    refine ⟨min (min bs.length (s.caps 0 + 1)) (r + 1), _, by omega, by omega, rfl, rfl, ?_, nofun⟩
    intro r' hr'
    cases hr'
    omega

/-- A connection that breaks within `bs` takes a part of it, or reports the failure. -/
theorem send_of_breaks {s : Sink} {bs : List UInt8} {r : Nat} (hroom : s.room = some r)
    (hr : r < bs.length) :
    (r = 0 ∧ s.send bs = (none, s)) ∨
      ∃ k s', 0 < k ∧ k ≤ r ∧ s.send bs = (some k, s') ∧ s'.room = some (r - k) := by
  have hbs : bs ≠ [] := by
    rintro rfl
    simp at hr
  unfold send
  rw [if_neg hbs, hroom]
  cases r with
  | zero => exact .inl ⟨rfl, rfl⟩
  | succ r => exact .inr ⟨min (min bs.length (s.caps 0 + 1)) (r + 1), _, by omega, by omega, rfl, rfl⟩

end Sink

end JitDt
