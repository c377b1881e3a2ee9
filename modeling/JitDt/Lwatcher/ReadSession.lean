import JitDt.Jitcclient.Read
import JitDt.Lwatcher.RoundTrip

/-!
# Reading a file over one connection

The cases `CMD_OPEN` and `CMD_READ` of `transfer`, and the exchanges of a client that
opens a file, reads it piece by piece and closes it. `Session` holds the bytes on their
way in both directions; every exchange has its own fragmentation of all four transfers.
-/

namespace JitDt.Lwatcher

set_option autoImplicit false

open Misclib Jitcclient

/-- The data file of the connection: its descriptor, and what `read` has still to give. -/
structure Conn where
  tfd : Int
  file : List UInt8

/-- The file of the requested type has arrived as `fname`, and `open` has returned `tfd`. -/
def cmdOpen (fuel : Nat) (fname : Path) (tfd : Int) (content : List UInt8) (snk : Sink)
    (junk : TransCmd) (pad : Padding) : Option (Conn × Sink) := do
  let (_, snk') ← trans_replyopen fuel snk (some fname) 0 junk pad
  some (⟨tfd, content⟩, snk')

/-- `read` delivers the smaller of what was asked for and what is left. -/
def cmdRead (fuel : Nat) (c : Conn) (opt : Opt) (snk : Sink) (junk : TransCmd) (pad : Padding) :
    Option (Conn × Sink) :=
  if 0 < c.tfd then
    -- no buffer can be had for a negative size
    if firstOpt opt < 0 then none
    else do
      let cp := c.file.take (firstOpt opt).toInt.toNat
      let r ← trans_replyread fuel snk cp (Int32.ofNat cp.length) junk pad
      some ({ c with file := c.file.drop cp.length }, r.2)
  else do
    let r ← trans_replyread fuel snk [] 0 junk pad
    some (c, r.2)

structure Session where
  up : List UInt8
  down : List UInt8
  conn : Conn

/-- How the transfers of one exchange are cut, and what was on the server's stack. -/
structure Exchange where
  reqOut : Nat → Nat
  reqIn : Nat → Nat
  repOut : Nat → Nat
  repIn : Nat → Nat
  junk : TransCmd
  pad : Padding

def openExchange (fuel : Nat) (x : Exchange) (type : Int32) (fname : Path) (tfd : Int)
    (content : List UInt8) : Option ((Int × Option (TransCmd × List UInt8)) × Session) := do
  let (_, out) ← netsendreq fuel ⟨[], x.reqOut, none⟩ .open type 0 0
  let ((cmd, _), src) ← trans_getcmd fuel ⟨out.sent, x.reqIn, .eof⟩
  match cmd with
  | .open => do
    let (conn, snk) ← cmdOpen fuel fname tfd content ⟨[], x.repOut, none⟩ x.junk x.pad
    let (reply, inp) ← netrecvreply fuel ⟨snk.sent, x.repIn, .eof⟩
    some (reply, ⟨src.pending, inp.pending, conn⟩)
  | _ => none

def readExchange (fuel : Nat) (x : Exchange) (size : Nat) (s : Session) :
    Option (JitRead × Session) := do
  let (_, out) ← netsendreq fuel ⟨s.up, x.reqOut, none⟩ .read (Int32.ofNat size) 0 0
  let ((cmd, opt), src) ← trans_getcmd fuel ⟨out.sent, x.reqIn, .eof⟩
  match cmd, opt with
  | .read, some opt => do
    let (conn, snk) ← cmdRead fuel s.conn opt ⟨s.down, x.repOut, none⟩ x.junk x.pad
    let (res, _, inp) ← _jitread fuel size ⟨s.up, x.reqOut, none⟩ ⟨snk.sent, x.repIn, .eof⟩
    some (res, ⟨src.pending, inp.pending, conn⟩)
  | _, _ => none

/-- The command the server finds when the client closes, and what is left on the stream. -/
def closeExchange (fuel : Nat) (x : Exchange) (s : Session) : Option (Cmd × List UInt8) := do
  let (_, out) ← netsendreq fuel ⟨s.up, x.reqOut, none⟩ .close 0 0 0
  let ((cmd, _), src) ← trans_getcmd fuel ⟨out.sent, x.reqIn, .eof⟩
  some (cmd, src.pending)

def readAll (fuel : Nat) : List (Exchange × Nat) → Session → Option (List JitRead × Session)
  | [], s => some ([], s)
  | (x, size) :: calls, s => do
    let (r, s') ← readExchange fuel x size s
    let (rs, s'') ← readAll fuel calls s'
    some (r :: rs, s'')

/-! ## Cutting a file into pieces -/

/-- Reading `sizes` one after the other from a file. -/
def pieces : List Nat → List UInt8 → List (List UInt8)
  | [], _ => []
  | n :: ns, file => file.take n :: pieces ns (file.drop n)

theorem pieces_flatten (ns : List Nat) (file : List UInt8) :
    (pieces ns file).flatten = file.take ns.sum := by
  induction ns generalizing file with
  | nil => rfl
  | cons n ns ih => rw [pieces, List.flatten_cons, ih, List.sum_cons, ← List.take_add]

theorem pieces_append (ns ms : List Nat) (file : List UInt8) :
    pieces (ns ++ ms) file = pieces ns file ++ pieces ms (file.drop ns.sum) := by
  induction ns generalizing file with
  | nil => rfl
  | cons n ns ih => simp only [List.cons_append, pieces, ih, List.sum_cons, List.drop_drop]

@[simp] theorem pieces_nil (ns : List Nat) : pieces ns [] = ns.map fun _ => [] := by
  induction ns with
  | nil => rfl
  | cons n ns ih => simp [pieces, ih]

@[simp] theorem length_pieces (ns : List Nat) (file : List UInt8) :
    (pieces ns file).length = ns.length := by
  induction ns generalizing file with
  | nil => rfl
  | cons n ns ih => simp [pieces, ih]

theorem forall₂_pieces (ns : List Nat) (file : List UInt8) :
    List.Forall₂ (fun p n => p.length ≤ n) (pieces ns file) ns := by
  induction ns generalizing file with
  | nil => exact .nil
  | cons n ns ih => exact .cons (List.length_take_le n file) (ih _)

/-- When the pieces before hold the whole file, the next one is empty. -/
theorem pieces_exhausted {ns : List Nat} {file : List UInt8} {before after : List (List UInt8)}
    {p : List UInt8} (h : pieces ns file = before ++ p :: after)
    (hall : before.flatten.length = file.length) : p = [] := by
  have hlen : before.length < ns.length := by
    have := congrArg List.length h
    simp at this
    omega
  have hsplit := pieces_append (ns.take before.length) (ns.drop before.length) file
  rw [List.take_append_drop, h] at hsplit
  obtain ⟨hbefore, hafter⟩ := List.append_inj hsplit (by simp; omega)
  rw [hbefore, pieces_flatten, List.length_take] at hall
  have hdone : file.drop (ns.take before.length).sum = [] := List.drop_eq_nil_of_le (by omega)
  rw [hdone, pieces_nil] at hafter
  have hp : p ∈ (ns.drop before.length).map fun _ => ([] : List UInt8) := by
    rw [← hafter]
    exact List.mem_cons_self
  obtain ⟨_, _, rfl⟩ := List.mem_map.mp hp
  rfl

/-! ## The exchanges -/

section Exchanges
variable {fuel : Nat}

theorem netsendreq_sends (hfuel : tcmdSize < fuel) (c : Cmd) (opt1 opt2 opt3 : Int32)
    (caps : Nat → Nat) :
    ∃ out, netsendreq fuel ⟨[], caps, none⟩ c opt1 opt2 opt3 = some ((tcmdSize : Int), out) ∧
      out.sent = (request c (threeOpts opt1 opt2 opt3) 3).encode .zero := by
  have hlen := TransCmd.encode_length (request c (threeOpts opt1 opt2 opt3) 3) .zero
  obtain ⟨out, hwrite, hsent, _⟩ := netwrite_of_room (s := ⟨[], caps, none⟩) (hlen ▸ hfuel) rfl
  rw [hlen] at hwrite
  exact ⟨out, hwrite, hsent.trans (List.nil_append _)⟩

/-- The request arrives as it was sent, and nothing is left of it. -/
theorem request_arrives (hfuel : tcmdSize < fuel) (c : Cmd) (opt1 opt2 opt3 : Int32)
    (outCaps inCaps : Nat → Nat) :
    ∃ out src, netsendreq fuel ⟨[], outCaps, none⟩ c opt1 opt2 opt3 = some ((tcmdSize : Int), out) ∧
      trans_getcmd fuel ⟨out.sent, inCaps, .eof⟩ =
        some ((c, some (request c (threeOpts opt1 opt2 opt3) 3).opt), src) ∧ src.pending = [] := by
  obtain ⟨out, hsend, hsent⟩ := netsendreq_sends hfuel c opt1 opt2 opt3 outCaps
  obtain ⟨src, hcmd, hpend⟩ := getcmd_request hfuel c (threeOpts opt1 opt2 opt3) 3 [] inCaps .eof
  rw [List.append_nil, ← hsent] at hcmd
  exact ⟨out, src, hsend, hcmd, hpend⟩

theorem replyread_sends (hfuel : intMax < fuel) {buf : List UInt8} (hbuf : buf.length ≤ intMax)
    (junk : TransCmd) (pad : Padding) (caps : Nat → Nat) :
    ∃ cc snk, trans_replyread fuel ⟨[], caps, none⟩ buf (Int32.ofNat buf.length) junk pad =
        some (cc, snk) ∧
      snk.sent = (replyOn junk junk.opt (Int32.ofNat buf.length)).encode pad ++ buf := by
  have hlen := TransCmd.encode_length (replyOn junk junk.opt (Int32.ofNat buf.length)) pad
  have hsmall : tcmdSize < fuel := lt_trans (by decide) hfuel
  obtain ⟨s₁, hwrite₁, hsent₁, hroom₁⟩ := netwrite_of_room (s := ⟨[], caps, none⟩)
    (hlen ▸ hsmall) rfl
  obtain ⟨s₂, hwrite₂, hsent₂, _⟩ := @netwrite_of_room buf fuel _ (by omega) hroom₁
  have hint : (Int32.ofNat buf.length).toInt = buf.length :=
    Int32.toInt_ofNat_of_lt (by unfold intMax at hbuf; omega)
  have hcc : ¬ ((((replyOn junk junk.opt (Int32.ofNat buf.length)).encode pad).length : Int) < 0) := by
    omega
  have hin : ¬ (Int32.ofNat buf.length < 0 ∨ (buf.length : Int) < buf.length) := by
    rw [Int32.lt_iff_toInt_lt, hint, Int32.toInt_zero]
    omega
  refine ⟨(buf.length : Int), s₂, ?_, by rw [hsent₂, hsent₁, List.nil_append]⟩
  simp only [trans_replyread, hwrite₁, Option.bind_eq_bind, Option.bind_some, if_neg hcc, hint,
    Int.toNat_natCast, List.take_length, if_neg hin]
  exact hwrite₂

theorem jitread_receives (hfuel : intMax < fuel) {header : TransCmd} {payload : List UInt8}
    (hlen : header.len.toInt = payload.length) (size : Nat) (pad : Padding)
    (outCaps inCaps : Nat → Nat) :
    ∃ out inp, _jitread fuel size ⟨[], outCaps, none⟩ ⟨header.encode pad ++ payload, inCaps, .eof⟩ =
      some (⟨payload.length, payload⟩, out, inp) ∧ inp.pending = [] := by
  have hsmall : tcmdSize < fuel := lt_trans (by decide) hfuel
  have hmax := header.len.toInt_lt
  obtain ⟨out, hsend, _⟩ := netsendreq_sends hsmall .read (Int32.ofNat size) 0 0 outCaps
  have hhead := TransCmd.encode_length header pad
  obtain ⟨s₁, hread₁, hpend₁, _⟩ := netread_of_le (by decide)
    (s := ⟨header.encode pad ++ payload, inCaps, .eof⟩) hsmall
    (by simp only [List.length_append, hhead]; omega)
  rw [List.take_left' hhead] at hread₁
  rw [List.drop_left' hhead] at hpend₁
  have hsize : sizeT header.len = payload.length := by
    rw [sizeT_of_nonneg (by omega), hlen]
    exact Int.toNat_natCast _
  obtain ⟨s₂, hread₂, hpend₂, _⟩ := @netread_of_le payload.length fuel s₁
    (by unfold intMax; omega) (by unfold intMax at hfuel; omega) (by rw [hpend₁])
  rw [hpend₁, List.take_length] at hread₂
  have hneg : ¬ (tcmdSize : Int) < 0 := by decide
  have hret : ¬ (tcmdSize : Int) ≤ 0 := by decide
  refine ⟨out, s₂, ?_, by rw [hpend₂, hpend₁, List.drop_length]⟩
  simp only [_jitread, hsend, Option.bind_eq_bind, Option.bind_some, if_neg hneg, hread₁,
    if_neg hret, TransCmd.decode_encode, hsize, hread₂]

/-- What `read` can get from the file of the connection. -/
def Conn.readable (c : Conn) : List UInt8 := if 0 < c.tfd then c.file else []

structure Aligned (s : Session) : Prop where
  up : s.up = []
  down : s.down = []

theorem read_opt (size : Nat) :
    (request .read (threeOpts (Int32.ofNat size) 0 0) 3).opt 0 = Int32.ofNat size := by
  simp [request, threeOpts]

theorem cmdRead_replies (hfuel : intMax < fuel) {size : Nat} (hsize : size ≤ intMax) (c : Conn)
    {opt : Opt} (hopt : opt 0 = Int32.ofNat size) (junk : TransCmd) (pad : Padding)
    (caps : Nat → Nat) :
    ∃ header c' snk, cmdRead fuel c opt ⟨[], caps, none⟩ junk pad = some (c', snk) ∧
      snk.sent = TransCmd.encode header pad ++ c.readable.take size ∧
      header.len.toInt = (c.readable.take size).length ∧
      c'.readable = c.readable.drop size ∧ c'.tfd = c.tfd := by
  have hint : (Int32.ofNat size).toInt = size :=
    Int32.toInt_ofNat_of_lt (by unfold intMax at hsize; omega)
  by_cases htfd : 0 < c.tfd
  · have hnonneg : ¬ Int32.ofNat size < 0 := by
      rw [Int32.lt_iff_toInt_lt, hint, Int32.toInt_zero]
      omega
    have hlen : (c.file.take size).length ≤ intMax := (List.length_take_le _ _).trans hsize
    obtain ⟨cc, snk, hreply, hsent⟩ := replyread_sends hfuel hlen junk pad caps
    refine ⟨replyOn junk junk.opt (Int32.ofNat (c.file.take size).length),
      { c with file := c.file.drop (c.file.take size).length }, snk, ?_, ?_, ?_, ?_, rfl⟩
    · simp only [cmdRead, if_pos htfd, firstOpt, hopt, if_neg hnonneg, hint, Int.toNat_natCast, hreply,
        Option.bind_eq_bind, Option.bind_some]
    · rw [Conn.readable, if_pos htfd]
      exact hsent
    · rw [Conn.readable, if_pos htfd]
      exact Int32.toInt_ofNat_of_lt (by unfold intMax at hlen; omega)
    · simp only [Conn.readable, if_pos htfd, List.length_take]
      exact List.drop_eq_drop_min.symm
  · obtain ⟨cc, snk, hreply, hsent⟩ := @replyread_sends _ hfuel [] (by simp) junk pad caps
    refine ⟨replyOn junk junk.opt (Int32.ofNat ([] : List UInt8).length), c, snk, ?_, ?_, ?_, ?_, rfl⟩
    · simp only [cmdRead, if_neg htfd, Option.bind_eq_bind]
      rw [show (0 : Int32) = Int32.ofNat ([] : List UInt8).length by rfl, hreply]
      rfl
    · rw [Conn.readable, if_neg htfd, List.take_nil]
      exact hsent
    · rw [Conn.readable, if_neg htfd, List.take_nil]
      rfl
    · rw [Conn.readable, if_neg htfd, List.drop_nil]

/-- One call of `_jitread` stores the next piece and leaves nothing on the streams. -/
theorem readExchange_spec (hfuel : intMax < fuel) {size : Nat} (hsize : size ≤ intMax)
    (x : Exchange) {s : Session} (hs : Aligned s) :
    ∃ s', readExchange fuel x size s = some (⟨(s.conn.readable.take size).length,
        s.conn.readable.take size⟩, s') ∧
      Aligned s' ∧ s'.conn.readable = s.conn.readable.drop size ∧ s'.conn.tfd = s.conn.tfd := by
  have hsmall : tcmdSize < fuel := lt_trans (by decide) hfuel
  obtain ⟨out, src, hsend, hcmd, hup⟩ :=
    request_arrives hsmall .read (Int32.ofNat size) 0 0 x.reqOut x.reqIn
  obtain ⟨header, c', snk, hread, hsent, hlen, hfile, htfd⟩ :=
    cmdRead_replies hfuel hsize s.conn (read_opt size) x.junk x.pad x.repOut
  obtain ⟨_, inp, hget, hdown⟩ := jitread_receives hfuel hlen size x.pad x.reqOut x.repIn
  refine ⟨⟨src.pending, inp.pending, c'⟩, ?_, ⟨hup, hdown⟩, hfile, htfd⟩
  simp only [readExchange, hs.up, hs.down, hsend, Option.bind_eq_bind, Option.bind_some, hcmd,
    hread, hsent, hget]

theorem readAll_spec (hfuel : intMax < fuel) {calls : List (Exchange × Nat)}
    (hsize : ∀ c ∈ calls, c.2 ≤ intMax) {s : Session} (hs : Aligned s) :
    ∃ rs s', readAll fuel calls s = some (rs, s') ∧ Aligned s' ∧
      rs.map JitRead.stored = pieces (calls.map Prod.snd) s.conn.readable ∧
      ∀ r ∈ rs, r.ret = r.stored.length := by
  induction calls generalizing s with
  | nil => exact ⟨[], s, rfl, hs, rfl, nofun⟩
  | cons c calls ih =>
    obtain ⟨s₁, hread, hs₁, hfile, _⟩ := readExchange_spec hfuel (hsize c List.mem_cons_self) c.1 hs
    obtain ⟨rs, s', hrest, hs', hpieces, hret⟩ :=
      ih (fun d hd => hsize d (List.mem_cons_of_mem _ hd)) hs₁
    refine ⟨⟨(s.conn.readable.take c.2).length, s.conn.readable.take c.2⟩ :: rs, s', ?_, hs', ?_, ?_⟩
    · simp only [readAll, hread, hrest, Option.bind_eq_bind, Option.bind_some]
    · simp only [List.map_cons, pieces, hpieces, hfile]
    · intro r hr
      rcases List.mem_cons.mp hr with rfl | hr
      · rfl
      · exact hret r hr

/-- The client learns the name of the file it opened, and the streams are empty again. -/
theorem openExchange_spec (hfuel : intMax < fuel) (x : Exchange) (type : Int32) {fname : Path}
    (hname : fname.bytes.length ≤ intMax) (tfd : Int) (content : List UInt8) :
    ∃ (header : TransCmd) (s : Session), openExchange fuel x type fname tfd content =
        some (((fname.bytes.length : Int), some (header, fname.bytes)), s) ∧
      header.opt 0 = 0 ∧ Aligned s ∧ s.conn = ⟨tfd, content⟩ := by
  have hsmall : tcmdSize < fuel := lt_trans (by decide) hfuel
  obtain ⟨out, src, hsend, hcmd, hup⟩ := request_arrives hsmall .open type 0 0 x.reqOut x.reqIn
  have hhead := TransCmd.encode_length (openHeader x.junk (some fname) 0) x.pad
  have hlen : (openHeader x.junk (some fname) 0).len.toInt = fname.bytes.length :=
    Int32.toInt_ofNat_of_lt (by unfold intMax at hname; omega)
  obtain ⟨s₁, hwrite₁, hsent₁, hroom₁⟩ := netwrite_of_room (s := ⟨[], x.repOut, none⟩)
    (hhead ▸ hsmall) rfl
  obtain ⟨s₂, hwrite₂, hsent₂, _⟩ := @netwrite_of_room fname.bytes fuel _ (by omega)
    hroom₁
  rw [hsent₁, List.nil_append] at hsent₂
  obtain ⟨i₁, hread₁, hpend₁, _⟩ := netread_of_le (by decide)
    (s := ⟨(openHeader x.junk (some fname) 0).encode x.pad ++ fname.bytes, x.repIn, .eof⟩) hsmall
    (by simp only [List.length_append, hhead]; omega)
  rw [List.take_left' hhead] at hread₁
  rw [List.drop_left' hhead] at hpend₁
  have hsize : sizeT (openHeader x.junk (some fname) 0).len = fname.bytes.length := by
    rw [sizeT_of_nonneg (by omega), hlen]
    exact Int.toNat_natCast _
  obtain ⟨i₂, hread₂, hpend₂, _⟩ := @netread_of_le _ fuel i₁ hname (by omega)
    (by rw [hpend₁])
  rw [hpend₁, List.take_length] at hread₂
  have hcc : ¬ ((((openHeader x.junk (some fname) 0).encode x.pad).length : Int) < 0) := by omega
  have hneg : ¬ (openHeader x.junk (some fname) 0).len < 0 := by
    rw [Int32.lt_iff_toInt_lt, hlen, Int32.toInt_zero]
    omega
  have hreply : netrecvreply fuel
      ⟨(openHeader x.junk (some fname) 0).encode x.pad ++ fname.bytes, x.repIn, .eof⟩ =
        some (((fname.bytes.length : Int), some (openHeader x.junk (some fname) 0, fname.bytes)), i₂) := by
    simp only [netrecvreply, hread₁, Option.bind_eq_bind, Option.bind_some, ne_eq, not_true_eq_false,
      if_false, TransCmd.decode_encode, if_neg hneg, hsize, hread₂, hlen]
  refine ⟨openHeader x.junk (some fname) 0, ⟨src.pending, i₂.pending, ⟨tfd, content⟩⟩, ?_, ?_,
    ⟨hup, by rw [hpend₂, hpend₁, List.drop_length]⟩, rfl⟩
  · simp only [openExchange, hsend, Option.bind_eq_bind, Option.bind_some, hcmd, cmdOpen,
      trans_replyopen, hwrite₁, if_neg hcc, hwrite₂, hsent₂, hreply]
  · simp [openHeader, replyOn, setFirstOpt]

theorem closeExchange_spec (hfuel : tcmdSize < fuel) (x : Exchange) {s : Session} (hs : Aligned s) :
    closeExchange fuel x s = some (.close, []) := by
  obtain ⟨out, src, hsend, hcmd, hup⟩ := request_arrives hfuel .close 0 0 0 x.reqOut x.reqIn
  simp only [closeExchange, hs.up, hsend, Option.bind_eq_bind, Option.bind_some, hcmd, hup]

end Exchanges

/-- An OPEN/READ/CLOSE session, with all transfers cut into any pieces. The client gets the
name of the file and then, call by call, the file from its beginning: every call returns
the number of bytes it stored, at most as many as it asked for, and `0` once the file is
exhausted; the streams are empty after any number of calls, and the final CLOSE is
recognised. -/
theorem read_session {fuel : Nat} (hfuel : intMax < fuel) (xo xc : Exchange) (type : Int32)
    {fname : Path} (hname : fname.bytes.length ≤ intMax) (tfd : Int) (content : List UInt8)
    {calls : List (Exchange × Nat)} (hsize : ∀ c ∈ calls, 0 < c.2 ∧ c.2 < 2 ^ 31) :
    ∃ (header : TransCmd) (s₀ : Session) (rs : List JitRead) (s : Session),
      openExchange fuel xo type fname tfd content =
        some (((fname.bytes.length : Int), some (header, fname.bytes)), s₀) ∧ header.opt 0 = 0 ∧
      readAll fuel calls s₀ = some (rs, s) ∧
      List.Forall₂ (fun r c => r.ret = r.stored.length ∧ r.stored.length ≤ c.2) rs calls ∧
      rs.flatMap JitRead.stored = content.take (rs.flatMap JitRead.stored).length ∧
      (0 < tfd → (rs.flatMap JitRead.stored).length =
        min (calls.map Prod.snd).sum content.length) ∧
      (∀ before r after, rs = before ++ r :: after →
        (before.flatMap JitRead.stored).length = content.length → r.ret = 0) ∧
      Aligned s ∧ closeExchange fuel xc s = some (.close, []) := by
  obtain ⟨header, s₀, hopen, hopt, hs₀, hconn⟩ := openExchange_spec hfuel xo type hname tfd content
  have hmax : ∀ c ∈ calls, c.2 ≤ intMax := by
    intro c hc
    have := (hsize c hc).2
    unfold intMax
    omega
  obtain ⟨rs, s, hreads, hs, hpieces, hret⟩ := readAll_spec hfuel hmax hs₀
  have hflat : rs.flatMap JitRead.stored = s₀.conn.readable.take (calls.map Prod.snd).sum := by
    rw [List.flatMap_def, hpieces, pieces_flatten]
  have hsmall : tcmdSize < fuel := lt_trans (by decide) hfuel
  refine ⟨header, s₀, rs, s, hopen, hopt, hreads, ?_, ?_, ?_, ?_, hs,
    closeExchange_spec hsmall xc hs⟩
  · have hforall := forall₂_pieces (calls.map Prod.snd) s₀.conn.readable
    rw [← hpieces, List.forall₂_map_left_iff, List.forall₂_map_right_iff] at hforall
    exact (List.forall₂_and_left _ _).mpr ⟨hret, hforall⟩
  · rw [hflat, hconn, Conn.readable]
    split
    · rw [List.length_take, ← List.take_eq_take_min]
    · simp
  · intro htfd
    rw [hflat, hconn, Conn.readable, if_pos htfd, List.length_take]
  · intro before r after hsplit hall
    have hr : r ∈ rs := by
      rw [hsplit]
      simp
    rw [hret r hr]
    rw [hsplit, List.map_append, List.map_cons] at hpieces
    have hnil : r.stored = [] := by
      by_cases htfd : 0 < tfd
      · refine pieces_exhausted hpieces.symm ?_
        rw [← List.flatMap_def, hall, hconn, Conn.readable, if_pos htfd]
      · have hmem : r.stored ∈ pieces (calls.map Prod.snd) s₀.conn.readable := by
          rw [← hpieces]
          simp
        rw [hconn, Conn.readable, if_neg htfd, pieces_nil] at hmem
        obtain ⟨_, _, h⟩ := List.mem_map.mp hmem
        exact h.symm
    rw [hnil]
    rfl

/-- A file of three bytes, read with room for two and then for five. -/
theorem read_session_two_calls :
    ∃ (x : Exchange) (s₀ : Session) (rs : List JitRead) (s : Session),
      readAll (intMax + 1) [(x, 2), (x, 5)] s₀ = some (rs, s) ∧
      rs.flatMap JitRead.stored = [1, 2, 3] ∧ Aligned s := by
  obtain ⟨_, s₀, rs, s, _, _, hreads, _, hprefix, htotal, _, hs, _⟩ :=
    @read_session (intMax + 1) (by decide)
      ⟨fun _ => 0, fun _ => 7, fun _ => 1, fun _ => 0, request .exit (fun _ => 0) 0, .zero⟩
      ⟨fun _ => 0, fun _ => 7, fun _ => 1, fun _ => 0, request .exit (fun _ => 0) 0, .zero⟩ 0
      ⟨[97], by decide⟩ (by decide) 5 [1, 2, 3]
      [(⟨fun _ => 0, fun _ => 7, fun _ => 1, fun _ => 0, request .exit (fun _ => 0) 0, .zero⟩, 2),
        (⟨fun _ => 0, fun _ => 7, fun _ => 1, fun _ => 0, request .exit (fun _ => 0) 0, .zero⟩, 5)]
      (by
        intro c hc
        rcases List.mem_cons.mp hc with rfl | hc
        · exact ⟨by decide, by decide⟩
        · rw [List.mem_singleton.mp hc]
          exact ⟨by decide, by decide⟩)
  refine ⟨_, s₀, rs, s, hreads, ?_, hs⟩
  rw [ hprefix, htotal (by decide)]
  rfl

end JitDt.Lwatcher
