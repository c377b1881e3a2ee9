import JitDt.Lib.LittleEndian
import JitDt.Lib.ByteStream
import JitDt.Lib.Memory

/-!
# The request/reply protocol of jitcclient.c

`TransCmd` is `struct trans_cmd`; `encode` and `decode` are its memory image on the
machines the programs run on (little endian, `int` aligned at 4, `long long` at 8).
`netread` and `netwrite` are the partial-I/O loops. They take fuel because at the
end of the stream `netread` reads zero bytes for ever: `none` means that the loop
has not ended yet, or undefined behaviour.
-/

namespace JitDt.Jitcclient

set_option autoImplicit false

def cmdSize : Nat := 4
def scmdStrsiz : Nat := 256
abbrev transoptSize : Nat := 3

/-- The commands, in the order of their numbers `CMD_OPEN = 1 .. CMD_REPLY = 7`. -/
inductive Cmd where
  | open
  | close
  | get
  | exit
  | status
  | read
  | reply
deriving DecidableEq

namespace Cmd

def all : List Cmd := [.open, .close, .get, .exit, .status, .read, .reply]

def toInt : Cmd → Int
  | .open => 1
  | .close => 2
  | .get => 3
  | .exit => 4
  | .status => 5
  | .read => 6
  | .reply => 7

/-- `strcmd[]`: `OPEN`, `CLOS`, `GET0`, `EXIT`, `STAT`, `READ`, `REPL`. -/
def strcmd : Cmd → List UInt8
  | .open => [79, 80, 69, 78]
  | .close => [67, 76, 79, 83]
  | .get => [71, 69, 84, 48]
  | .exit => [69, 88, 73, 84]
  | .status => [83, 84, 65, 84]
  | .read => [82, 69, 65, 68]
  | .reply => [82, 69, 80, 76]

theorem strcmd_length (c : Cmd) : c.strcmd.length = cmdSize := by cases c <;> rfl

end Cmd

abbrev Opt := Fin transoptSize → Int32

structure TransCmd where
  cmd : List UInt8
  opt : Opt
  date : Int64
  str : List UInt8
  len : Int32
  cmd_length : cmd.length = cmdSize + 1
  str_length : str.length = scmdStrsiz

def tcmdSize : Nat := 296

/-- The bytes between the fields, which the C compiler leaves as they are. -/
structure Padding where
  afterCmd : List UInt8
  afterOpt : List UInt8
  afterLen : List UInt8
  afterCmd_length : afterCmd.length = 3
  afterOpt_length : afterOpt.length = 4
  afterLen_length : afterLen.length = 4

def Padding.zero : Padding := ⟨[0, 0, 0], [0, 0, 0, 0], [0, 0, 0, 0], rfl, rfl, rfl⟩

def optBytes (opt : Opt) : List UInt8 := int32Bytes (opt 0) ++ (int32Bytes (opt 1) ++ int32Bytes (opt 2))

def firstOpt (opt : Opt) : Int32 := opt 0

def setFirstOpt (opt : Opt) (val : Int32) : Opt := Function.update opt 0 val

@[simp] theorem optBytes_length (opt : Opt) : (optBytes opt).length = 12 := by simp [optBytes]

namespace TransCmd

def encode (c : TransCmd) (pad : Padding) : List UInt8 :=
  c.cmd ++ (pad.afterCmd ++ (optBytes c.opt ++ (pad.afterOpt ++ (int64Bytes c.date ++
    (c.str ++ (int32Bytes c.len ++ pad.afterLen))))))

def decode (bs : List UInt8) : Option TransCmd :=
  if h : bs.length = tcmdSize then
    some
      { cmd := slice 0 5 bs
        opt := fun i => int32Of (slice (8 + 4 * i.val) 4 bs)
        date := int64Of (slice 24 8 bs)
        str := slice 32 256 bs
        len := int32Of (slice 288 4 bs)
        cmd_length := slice_length (by rw [h]; decide)
        str_length := slice_length (by rw [h]; decide) }
  else none

theorem encode_length (c : TransCmd) (pad : Padding) : (c.encode pad).length = tcmdSize := by
  simp [encode, c.cmd_length, c.str_length, pad.afterCmd_length, pad.afterOpt_length,
    pad.afterLen_length, cmdSize, scmdStrsiz, tcmdSize]

theorem slice_cmd (c : TransCmd) (pad : Padding) : slice 0 5 (c.encode pad) = c.cmd :=
  slice_append (p := []) rfl c.cmd_length

theorem slice_opt (c : TransCmd) (pad : Padding) (i : Fin transoptSize) :
    slice (8 + 4 * i.val) 4 (c.encode pad) = int32Bytes (c.opt i) := by
  have hpre : (c.cmd ++ pad.afterCmd).length = 8 := by
    simp [c.cmd_length, pad.afterCmd_length, cmdSize]
  unfold encode optBytes
  fin_cases i
  · have h := slice_append (q := int32Bytes (c.opt 1) ++ (int32Bytes (c.opt 2) ++
      (pad.afterOpt ++ (int64Bytes c.date ++ (c.str ++ (int32Bytes c.len ++ pad.afterLen))))))
      hpre (int32Bytes_length (c.opt 0))
    simpa [List.append_assoc] using h
  · have hpre₁ : (c.cmd ++ pad.afterCmd ++ int32Bytes (c.opt 0)).length = 12 := by
      rw [List.length_append, hpre, int32Bytes_length]
    have h := slice_append (q := int32Bytes (c.opt 2) ++
      (pad.afterOpt ++ (int64Bytes c.date ++ (c.str ++ (int32Bytes c.len ++ pad.afterLen)))))
      hpre₁ (int32Bytes_length (c.opt 1))
    simpa [List.append_assoc] using h
  · have hpre₂ : (c.cmd ++ pad.afterCmd ++ int32Bytes (c.opt 0) ++
        int32Bytes (c.opt 1)).length = 16 := by
      rw [List.length_append, List.length_append, hpre, int32Bytes_length, int32Bytes_length]
    have h := slice_append (q := pad.afterOpt ++ (int64Bytes c.date ++ (c.str ++
      (int32Bytes c.len ++ pad.afterLen)))) hpre₂ (int32Bytes_length (c.opt 2))
    show slice 16 4 _ = int32Bytes (c.opt 2)
    simpa [List.append_assoc] using h

theorem slice_date (c : TransCmd) (pad : Padding) :
    slice 24 8 (c.encode pad) = int64Bytes c.date := by
  have hpre : (c.cmd ++ pad.afterCmd ++ optBytes c.opt ++ pad.afterOpt).length = 24 := by
    simp [c.cmd_length, pad.afterCmd_length, pad.afterOpt_length, cmdSize]
  have h := slice_append (q := c.str ++ (int32Bytes c.len ++ pad.afterLen)) hpre
    (int64Bytes_length c.date)
  simpa [encode, List.append_assoc] using h

theorem slice_str (c : TransCmd) (pad : Padding) : slice 32 256 (c.encode pad) = c.str := by
  have hpre : (c.cmd ++ pad.afterCmd ++ optBytes c.opt ++ pad.afterOpt ++
      int64Bytes c.date).length = 32 := by
    simp [c.cmd_length, pad.afterCmd_length, pad.afterOpt_length, cmdSize]
  have hstr : c.str.length = 256 := c.str_length
  have h := slice_append (q := int32Bytes c.len ++ pad.afterLen) hpre hstr
  simpa [encode, List.append_assoc] using h

theorem slice_len (c : TransCmd) (pad : Padding) :
    slice 288 4 (c.encode pad) = int32Bytes c.len := by
  have hpre : (c.cmd ++ pad.afterCmd ++ optBytes c.opt ++ pad.afterOpt ++ int64Bytes c.date ++
      c.str).length = 288 := by
    simp [c.cmd_length, c.str_length, pad.afterCmd_length, pad.afterOpt_length, cmdSize,
      scmdStrsiz]
  have h := slice_append (q := pad.afterLen) hpre (int32Bytes_length c.len)
  simpa [encode, List.append_assoc] using h

/-- A header arrives as it was sent, whatever the padding bytes were. -/
theorem decode_encode (c : TransCmd) (pad : Padding) : decode (c.encode pad) = some c := by
  unfold decode
  rw [dif_pos (encode_length c pad)]
  simp only [slice_cmd, slice_opt, slice_date, slice_str, slice_len, int32Of_int32Bytes,
    int64Of_int64Bytes]

end TransCmd

/-! ## Partial I/O -/

structure NetRead where
  ret : Int
  stored : List UInt8

/-- `INT_MAX`, the most that `sz` in the loops can count. -/
def intMax : Nat := 2147483647

/-- The loop of `netread`, with `got` stored so far. -/
def netreadLoop (size : Nat) : Nat → List UInt8 → Source → Option (NetRead × Source)
  | 0, _, _ => none
  | fuel + 1, got, s =>
    match s.recv (size - got.length) with
    | (none, s') => some (⟨-1, got⟩, s')
    | (some bs, s') =>
      if intMax < (got ++ bs).length then none
      else if (got ++ bs).length = size then some (⟨size, got ++ bs⟩, s')
      else netreadLoop size fuel (got ++ bs) s'

def netread (fuel : Nat) (size : Nat) (s : Source) : Option (NetRead × Source) :=
  netreadLoop size fuel [] s

def netwriteLoop (buf : List UInt8) : Nat → Nat → Sink → Option (Int × Sink)
  | 0, _, _ => none
  | fuel + 1, sz, s =>
    match s.send (buf.drop sz) with
    | (none, s') => some (-1, s')
    | (some cc, s') =>
      if sz + cc = buf.length then some ((buf.length : Int), s')
      else netwriteLoop buf fuel (sz + cc) s'

def netwrite (fuel : Nat) (buf : List UInt8) (s : Sink) : Option (Int × Sink) :=
  netwriteLoop buf fuel 0 s

theorem netreadLoop_of_le {size : Nat} {fuel : Nat} {got : List UInt8} {s : Source}
    (hmax : size ≤ intMax) (hgot : got.length ≤ size) (hfuel : size - got.length < fuel)
    (h : size - got.length ≤ s.pending.length) :
    ∃ s', netreadLoop size fuel got s =
        some (⟨size, got ++ s.pending.take (size - got.length)⟩, s') ∧
      s'.pending = s.pending.drop (size - got.length) ∧ s'.ending = s.ending := by
  induction fuel generalizing got s with
  | zero => omega
  | succ fuel ih =>
    by_cases hz : size - got.length = 0
    · have hlen : got.length = size := by omega
      refine ⟨s, ?_, by simp [hz], rfl⟩
      simp [netreadLoop, Source.recv, hlen, not_lt.mpr hmax]
    · obtain ⟨k, s₁, hk₀, hk, hrecv, hpend, hend⟩ := Source.recv_of_le (by omega) h
      have hlen : (got ++ s.pending.take k).length = got.length + k := by
        simp
        omega
      simp only [netreadLoop, hrecv, hlen]
      rw [if_neg (by omega)]
      by_cases hdone : got.length + k = size
      · have hk' : size - got.length = k := by omega
        refine ⟨s₁, ?_, by rw [hpend, hk'], hend⟩
        rw [if_pos hdone, hk']
      · rw [if_neg hdone]
        have hgot' : (got ++ s.pending.take k).length ≤ size := by omega
        obtain ⟨s', hloop, hpend', hend'⟩ := ih (s := s₁) hgot' (by omega)
          (by rw [hpend, List.length_drop]; omega)
        have hsum : size - got.length = k + (size - (got.length + k)) := by omega
        refine ⟨s', ?_, ?_, hend'.trans hend⟩
        · rw [hloop, hlen, hpend, List.append_assoc, ← List.take_add, ← hsum]
        · rw [hpend', hlen, hpend, List.drop_drop, ← hsum]

/-- `netread` returns as soon as enough bytes are pending and takes exactly these. -/
theorem netread_of_le {size fuel : Nat} {s : Source} (hmax : size ≤ intMax) (hfuel : size < fuel)
    (h : size ≤ s.pending.length) :
    ∃ s', netread fuel size s = some (⟨size, s.pending.take size⟩, s') ∧
      s'.pending = s.pending.drop size ∧ s'.ending = s.ending := by
  have hgot : ([] : List UInt8).length ≤ size := Nat.zero_le size
  have hloop := netreadLoop_of_le (s := s) hmax hgot (by simpa using hfuel) (by simpa using h)
  simpa [netread] using hloop

theorem netwriteLoop_of_takes {buf : List UInt8} {fuel sz : Nat} {s : Sink} (hsz : sz ≤ buf.length)
    (hfuel : buf.length - sz < fuel) (ht : s.Takes (buf.length - sz)) :
    ∃ s', netwriteLoop buf fuel sz s = some ((buf.length : Int), s') ∧
      s'.sent = s.sent ++ buf.drop sz ∧ (s.room = none → s'.room = none) := by
  induction fuel generalizing sz s with
  | zero => omega
  | succ fuel ih =>
    by_cases hz : buf.drop sz = []
    · have hlen : sz = buf.length := by
        have := List.drop_eq_nil_iff.mp hz
        omega
      refine ⟨s, ?_, by simp [hz], id⟩
      simp [netwriteLoop, Sink.send, hlen]
    · rw [← List.length_drop] at ht
      obtain ⟨k, s₁, hk₀, hk, hsend, hsent, ht₁, hroom₁⟩ := Sink.send_of_takes ht hz
      rw [List.length_drop] at hk ht₁
      have hsplit : buf.drop sz = (buf.drop sz).take k ++ buf.drop (sz + k) := by
        rw [← List.drop_drop, List.take_append_drop]
      simp only [netwriteLoop, hsend]
      by_cases hdone : sz + k = buf.length
      · refine ⟨s₁, by rw [if_pos hdone], ?_, hroom₁⟩
        rw [hsent, hsplit]
        simp [hdone]
      · rw [if_neg hdone]
        have hle : sz + k ≤ buf.length := by omega
        rw [show buf.length - sz - k = buf.length - (sz + k) by omega] at ht₁
        obtain ⟨s', hloop, hsent', hroom'⟩ := ih hle (by omega) ht₁
        refine ⟨s', hloop, ?_, fun h => hroom' (hroom₁ h)⟩
        rw [hsent', hsent, List.append_assoc, ← hsplit]

theorem netwrite_of_takes {b : List UInt8} {fuel : Nat} {s : Sink} (hfuel : b.length < fuel)
    (ht : s.Takes b.length) :
    ∃ s', netwrite fuel b s = some ((b.length : Int), s') ∧ s'.sent = s.sent ++ b ∧
      (s.room = none → s'.room = none) := by
  have hsz : 0 ≤ b.length := Nat.zero_le _
  simpa [netwrite] using netwriteLoop_of_takes hsz (by simpa using hfuel) (by simpa using ht)

theorem netwrite_of_room {b : List UInt8} {fuel : Nat} {s : Sink} (hfuel : b.length < fuel)
    (hroom : s.room = none) :
    ∃ s', netwrite fuel b s = some ((b.length : Int), s') ∧ s'.sent = s.sent ++ b ∧
      s'.room = none := by
  obtain ⟨s', hwrite, hsent, hroom'⟩ := netwrite_of_takes hfuel (Sink.takes_of_room hroom _)
  exact ⟨s', hwrite, hsent, hroom' hroom⟩

/-- A connection that breaks before the whole buffer is sent makes `netwrite` fail. -/
theorem netwriteLoop_of_breaks {buf : List UInt8} {fuel sz r : Nat} {s : Sink}
    (hroom : s.room = some r) (hr : r < buf.length - sz) (hfuel : r < fuel) :
    ∃ s', netwriteLoop buf fuel sz s = some (-1, s') := by
  induction fuel generalizing sz r s with
  | zero => omega
  | succ fuel ih =>
    rw [← List.length_drop] at hr
    rcases Sink.send_of_breaks hroom hr with ⟨_, hsend⟩ | ⟨k, s₁, hk₀, hk, hsend, hroom₁⟩
    · exact ⟨s, by simp only [netwriteLoop, hsend]⟩
    · rw [List.length_drop] at hr
      simp only [netwriteLoop, hsend]
      rw [if_neg (by omega)]
      exact ih hroom₁ (by omega) (by omega)

theorem netwrite_of_breaks {b : List UInt8} {fuel : Nat} {s : Sink} (hfuel : b.length < fuel)
    (ht : ¬ s.Takes b.length) : ∃ s', netwrite fuel b s = some (-1, s') := by
  unfold Sink.Takes at ht
  push Not at ht
  obtain ⟨r, hroom, hr⟩ := ht
  exact netwriteLoop_of_breaks hroom (by omega) (by omega)

/-! ## Requests -/

def cmdField (c : Cmd) : List UInt8 := c.strcmd ++ [0]

theorem cmdField_length (c : Cmd) : (cmdField c).length = cmdSize + 1 := by
  simp [cmdField, Cmd.strcmd_length]

/-- The request header `netsendreq2` builds: the first `sz` entries of `opts`. -/
def request (c : Cmd) (opts : Nat → Int32) (sz : Int) : TransCmd where
  cmd := cmdField c
  opt := fun i => if (i.val : Int) < sz then opts i.val else 0
  date := 0
  str := List.replicate scmdStrsiz 0
  len := 0
  cmd_length := cmdField_length c
  str_length := List.length_replicate

def netsendreq2 (fuel : Nat) (s : Sink) (c : Cmd) (opts : Nat → Int32) (sz : Int) :
    Option (Int × Sink) :=
  -- an index from `TRANSOPT_SIZE` on writes behind `opt`
  if (transoptSize : Int) < sz then none
  else netwrite fuel ((request c opts sz).encode .zero) s

/-- The command found, and `opt` when a header arrived. -/
def trans_getcmd (fuel : Nat) (s : Source) : Option ((Cmd × Option Opt) × Source) := do
  let (r, s') ← netread fuel tcmdSize s
  if r.ret ≤ 0 then some ((.exit, none), s')
  else do
    let tcmd ← TransCmd.decode r.stored
    let cmd := (Cmd.all.find? fun c => tcmd.cmd.take cmdSize = c.strcmd).getD .exit
    some ((cmd, some tcmd.opt), s')

/-! ## Replies -/

def strncpy (src : List UInt8) (n : Nat) : List UInt8 :=
  let s := (cstrOf src).take n
  s ++ List.replicate (n - s.length) 0

theorem strncpy_length (src : List UInt8) (n : Nat) : (strncpy src n).length = n := by
  simp [strncpy]

/-- The reply header of `trans_replyget`. `retval` is copied as it is: an entry that
was never assigned has the value `junk` found on the stack. -/
def replyHeader (date : Nat) (fname : List UInt8) (totsz : Int32) (retval : Fin transoptSize → Option Int32)
    (junk : Opt) : TransCmd where
  cmd := cmdField .reply
  opt := fun i => (retval i).getD (junk i)
  date := (UInt64.ofNat date).toInt64
  str := strncpy fname (scmdStrsiz - 1) ++ [0]
  len := totsz
  cmd_length := cmdField_length .reply
  str_length := by simp [strncpy_length, scmdStrsiz]

/-- A negative `totsz` is a length beyond every buffer: undefined behaviour. -/
def trans_replyget (fuel : Nat) (s : Sink) (date : Nat) (fname : List UInt8) (buf : Memory)
    (totsz : Int) (retval : Fin transoptSize → Option Int32) (junk : Opt) (pad : Padding) :
    Option (Int × Sink) := do
  let header := replyHeader date fname (Int32.ofInt totsz) retval junk
  let (cc, s₁) ← netwrite fuel (header.encode pad) s
  if cc < 0 then some (cc, s₁)
  else if totsz < 0 then none
  else netwrite fuel (buf.read 0 totsz.toNat) s₁

/-! ## The client -/

structure JitGet where
  ret : Int
  /-- The bytes written to `fname`, when a header arrived. -/
  fname : Option (List UInt8)
  data : Memory
  size : Nat → Int32

def sizeT (x : Int32) : Nat := (x.toInt % 2 ^ 64).toNat

/-- The loop over the entries, `k` of them left: each is read to `data + ptr`, and
`ptr` advances by the size requested, not the size received. -/
def jitgetEntries (fuel : Nat) (opt : Opt) : Nat → Nat → Int32 → Memory → (Nat → Int32) → Source →
    Option ((Memory × (Nat → Int32)) × Source)
  | 0, _, _, data, size, s => some ((data, size), s)
  | k + 1, i, ptr, data, size, s =>
    if hi : i < transoptSize then do
      let (r, s') ← netread fuel (sizeT (opt ⟨i, hi⟩)) s
      jitgetEntries fuel opt k (i + 1) (ptr + size i) (data.write ptr.toInt r.stored)
        (Function.update size i (opt ⟨i, hi⟩)) s'
    else none

/-- `_jitget` on the connection made by `netopen`: it sends to `out` and receives from `inp`. -/
def _jitget (fuel : Nat) (data : Memory) (size : Nat → Int32) (ent : Int) (out : Sink)
    (inp : Source) : Option (JitGet × Sink × Source) := do
  let ent := if ent > (transoptSize : Int) then (transoptSize : Int) else ent
  let (cc, out') ← netsendreq2 fuel out .get size ent
  if cc < 0 then some (⟨cc, none, data, size⟩, out', inp)
  else do
    let (r, inp') ← netread fuel tcmdSize inp
    if r.ret ≤ 0 then some (⟨Cmd.exit.toInt, none, data, size⟩, out', inp')
    else do
      let tcmd ← TransCmd.decode r.stored
      let ((data', size'), inp'') ← jitgetEntries fuel tcmd.opt ent.toNat 0 0 data size inp'
      some (⟨0, some (strncpy tcmd.str (scmdStrsiz - 1)), data', size'⟩, out', inp'')

end JitDt.Jitcclient
