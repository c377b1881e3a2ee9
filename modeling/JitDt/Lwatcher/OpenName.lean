import JitDt.Lwatcher.ReadSession

/-!
# The name in the reply to an OPEN

`trans_replyopen` sends the path without its NUL, and `_jitopen` copies what stands behind
the header with `strcpy`. The block that `netrecvreply` allocates ends with the last byte
received, so the string ends somewhere behind the block: where, depends on bytes that
neither side wrote.
-/

namespace JitDt.Lwatcher

set_option autoImplicit false

open Misclib Jitcclient

/-- The memory around the block of `netrecvreply`, which starts at address 0. -/
def replyBlock (heap : Memory) (pad : Padding) (reply : TransCmd) (bytes : List UInt8) : Memory :=
  (heap.write 0 (reply.encode pad)).write tcmdSize bytes

theorem transoptSize_pos : 0 < transoptSize := Nat.succ_pos 2

/-- `_jitopen` succeeds, and the string behind the header is the path and ends within the
`tcmdSize + cc` bytes of the block. -/
def NameArrives (fuel : Nat) (x : Exchange) (type : Int32) (fname : Path) (tfd : Int)
    (content : List UInt8) (heap : Memory) : Prop :=
  ∃ cc reply bytes s, openExchange fuel x type fname tfd content = some ((cc, some (reply, bytes)), s) ∧
    0 ≤ cc ∧ 0 ≤ reply.opt ⟨0, transoptSize_pos⟩ ∧
      (replyBlock heap x.pad reply bytes).strAt tcmdSize cc.toNat = some fname.bytes

section
variable {fuel : Nat} {fname : Path} (heap : Memory) (pad : Padding) (reply : TransCmd)

theorem replyBlock_read (bytes : List UInt8) :
    (replyBlock heap pad reply bytes).read tcmdSize bytes.length = bytes := Memory.read_write _ _ _

theorem replyBlock_behind (bytes : List UInt8) :
    replyBlock heap pad reply bytes (tcmdSize + bytes.length) = heap (tcmdSize + bytes.length) := by
  unfold replyBlock
  rw [Memory.write_outside (Or.inr (le_refl _)), Memory.write_outside]
  rw [TransCmd.encode_length]
  omega

/-- What arrived is the path, so the string would have to end itself. -/
theorem NameArrives.strAt (hfuel : intMax < fuel) {x : Exchange} {type : Int32}
    (hname : fname.bytes.length ≤ intMax) {tfd : Int} {content : List UInt8}
    (h : NameArrives fuel x type fname tfd content heap) :
    ∃ reply, (replyBlock heap x.pad reply fname.bytes).strAt tcmdSize fname.bytes.length =
      some fname.bytes := by
  obtain ⟨cc, reply, bytes, s, hopen, _, _, hstr⟩ := h
  obtain ⟨header, s', hspec, _⟩ := openExchange_spec hfuel x type hname tfd content
  have hsame := (Prod.mk.inj (Option.some.inj (hopen.symm.trans hspec))).1
  obtain ⟨hcc, hrest⟩ := Prod.mk.inj hsame
  obtain ⟨rfl, rfl⟩ := Prod.mk.inj (Option.some.inj hrest)
  rw [hcc, Int.toNat_natCast] at hstr
  exact ⟨reply, hstr⟩

theorem replyBlock_not_terminated :
    (replyBlock heap pad reply fname.bytes).strAt tcmdSize fname.bytes.length = none :=
  Memory.strAt_eq_none fname.nul_free (replyBlock_read heap pad reply fname.bytes)

/-- For every path, every fragmentation and every memory the name is not terminated in the
block that was allocated for it. -/
theorem name_never_arrives (hfuel : intMax < fuel) (x : Exchange) (type : Int32)
    (hname : fname.bytes.length ≤ intMax) (tfd : Int) (content : List UInt8) :
    ¬ NameArrives fuel x type fname tfd content heap := by
  intro h
  obtain ⟨reply, hstr⟩ := h.strAt heap hfuel hname
  rw [replyBlock_not_terminated] at hstr
  cases hstr

/-- `strcpy` copies the path if and only if the byte behind the block happens to be 0. -/
theorem name_of_next_byte (hfuel : intMax < fuel) (x : Exchange) (type : Int32)
    (hname : fname.bytes.length ≤ intMax) (tfd : Int) (content : List UInt8) :
    ∃ cc reply bytes s, openExchange fuel x type fname tfd content =
        some ((cc, some (reply, bytes)), s) ∧
      ((replyBlock heap x.pad reply bytes).strAt tcmdSize (cc.toNat + 1) = some fname.bytes ↔
        heap (tcmdSize + cc) = 0) := by
  obtain ⟨header, s, hspec, _⟩ := openExchange_spec hfuel x type hname tfd content
  refine ⟨_, header, _, s, hspec, ?_⟩
  rw [Int.toNat_natCast, ← replyBlock_behind heap x.pad header fname.bytes]
  exact Memory.strAt_succ_iff fname.nul_free (replyBlock_read heap x.pad header fname.bytes)

end

/-- One byte at a time, on a stack of zero bytes. -/
def byteExchange : Exchange where
  reqOut := fun _ => 1
  reqIn := fun _ => 1
  repOut := fun _ => 1
  repIn := fun _ => 1
  junk := request .read (fun _ => 0) 0
  pad := .zero

theorem name_never_arrives_bell : ¬ NameArrives (intMax + 1) byteExchange 0
    ⟨[98, 101, 108, 108], by decide⟩ 4 [] (fun _ => 0) :=
  name_never_arrives _ (Nat.lt_succ_self _) _ _ (by decide) _ _

/-- The path `bell` in memory full of ones. -/
theorem name_arrives_fails :
    ¬ NameArrives (intMax + 1) byteExchange 0 ⟨[98, 101, 108, 108], by decide⟩ 4 [] fun _ => 1 := by
  intro h
  obtain ⟨reply, hstr⟩ := h.strAt _ (Nat.lt_succ_self _) (by decide)
  rw [replyBlock_not_terminated] at hstr
  cases hstr

end JitDt.Lwatcher
