import JitDt.Jitcclient.Wire

/-!
# OPEN and READ

The requests and replies of a connection that reads one file piece by piece. A reply
header is built on the stack: the fields that are not assigned keep what was there,
which is the parameter `junk`.
-/

namespace JitDt.Jitcclient

set_option autoImplicit false

def threeOpts (opt1 opt2 opt3 : Int32) : Nat → Int32
  | 0 => opt1
  | 1 => opt2
  | _ => opt3

def netsendreq (fuel : Nat) (s : Sink) (c : Cmd) (opt1 opt2 opt3 : Int32) : Option (Int × Sink) :=
  netwrite fuel ((request c (threeOpts opt1 opt2 opt3) 3).encode .zero) s

def replyOn (junk : TransCmd) (opt : Opt) (len : Int32) : TransCmd :=
  { junk with
    cmd := cmdField .reply
    opt := opt
    len := len
    cmd_length := cmdField_length .reply }

def openHeader (junk : TransCmd) (fpath : Option CStr) (rcc : Int32) : TransCmd :=
  let len := fpath.elim 0 fun p => Int32.ofNat p.bytes.length
  replyOn junk (setFirstOpt junk.opt rcc) len

def trans_replyopen (fuel : Nat) (s : Sink) (fpath : Option CStr) (rcc : Int32) (junk : TransCmd)
    (pad : Padding) : Option (Int × Sink) := do
  let (cc, s₁) ← netwrite fuel ((openHeader junk fpath rcc).encode pad) s
  if cc < 0 then some (cc, s₁)
  else
    match fpath with
    | none => some (cc, s₁)
    | some p => netwrite fuel p.bytes s₁

/-- `buf` is what was read into the buffer; a `size` beyond it is undefined behaviour. -/
def trans_replyread (fuel : Nat) (s : Sink) (buf : List UInt8) (size : Int32) (junk : TransCmd)
    (pad : Padding) : Option (Int × Sink) := do
  let (cc, s₁) ← netwrite fuel ((replyOn junk junk.opt size).encode pad) s
  if cc < 0 then some (cc, s₁)
  else if size < 0 ∨ (buf.length : Int) < size.toInt then none
  else netwrite fuel (buf.take size.toInt.toNat) s₁

/-! ## The client -/

/-- The header and the payload of a reply. A negative length makes the block smaller
than the header that is copied into it. -/
def netrecvreply (fuel : Nat) (inp : Source) :
    Option ((Int × Option (TransCmd × List UInt8)) × Source) := do
  let (r, inp₁) ← netread fuel tcmdSize inp
  if r.ret ≠ tcmdSize then some ((-1, none), inp₁)
  else do
    let reply ← TransCmd.decode r.stored
    if reply.len < 0 then none
    else do
      let (r', inp₂) ← netread fuel (sizeT reply.len) inp₁
      if r'.ret ≠ reply.len.toInt then some ((-1, some (reply, r'.stored)), inp₂)
      else some ((reply.len.toInt, some (reply, r'.stored)), inp₂)

structure JitRead where
  ret : Int
  /-- The bytes stored from `buf` on. -/
  stored : List UInt8

def _jitread (fuel : Nat) (size : Nat) (out : Sink) (inp : Source) :
    Option (JitRead × Sink × Source) := do
  let (cc, out₁) ← netsendreq fuel out .read (Int32.ofNat size) 0 0
  if cc < 0 then some (⟨-1, []⟩, out₁, inp)
  else do
    let (r, inp₁) ← netread fuel tcmdSize inp
    if r.ret ≤ 0 then some (⟨Cmd.exit.toInt, []⟩, out₁, inp₁)
    else do
      let tcmd ← TransCmd.decode r.stored
      let (r', inp₂) ← netread fuel (sizeT tcmd.len) inp₁
      some (⟨r'.ret, r'.stored⟩, out₁, inp₂)

end JitDt.Jitcclient
