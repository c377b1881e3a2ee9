import JitDt.Lwatcher.Framing
import JitDt.Jitcclient.Scatter

/-!
# The GET round trip

From the sizes a client passes to `_jitget` to the bytes in its regions: the request,
the reply packed by `transfer`, both over streams that may be cut into any pieces,
and the client's distribution of the payload.
-/

namespace JitDt.Lwatcher

set_option autoImplicit false

open Misclib Jitcclient

/-! ## The server's side -/

theorem length_flatMap_take_le {α : Type} (f : α → List UInt8) (l : List α) {i n : Nat}
    (h : i ≤ n) : ((l.take i).flatMap f).length ≤ ((l.take n).flatMap f).length := by
  have hsplit : l.take n = l.take i ++ (l.take n).drop i := by
    have := List.take_append_drop i (l.take n)
    rwa [List.take_take, Nat.min_eq_left h, eq_comm] at this
  rw [hsplit, List.flatMap_append, List.length_append]
  omega

theorem payloadUpTo_length_le {size : Nat → Int32} {opt : Opt}
    {files : Fin transoptSize → FileRead} {n : Nat} (hn : n ≤ transoptSize)
    (hshort : ∀ i : Fin transoptSize, i.val < n →
      ((chunk opt files i).length : Int) ≤ (size i.val).toInt) :
    ((payloadUpTo opt files n).length : Int) ≤ offset size n := by
  induction n with
  | zero => simp [payloadUpTo]
  | succ n ih =>
    have hi : n < transoptSize := by omega
    have hlast := hshort ⟨n, hi⟩ (by simp)
    have hrest := ih (by omega) fun i hlt => hshort i (by omega)
    simp only at hlast
    rw [payloadUpTo] at hrest ⊢
    rw [take_finRange_succ hi, List.flatMap_append, List.length_append, offset_succ]
    simp only [List.flatMap_cons, List.flatMap_nil, List.append_nil]
    push_cast
    omega

theorem sumSizesFrom_total {size : Nat → Int32} {opt : Opt} {n k i : Nat} {tot : Int32}
    (hn : n ≤ transoptSize) (hpos : ∀ u < n, 0 < (size u).toInt) (hsum : offset size n < 2 ^ 31)
    (hopt : ∀ u : Fin transoptSize, u.val < n → opt u = size u.val) (hk : i + k = n)
    (htot : tot.toInt = offset size i) :
    ∃ t, sumSizesFrom opt k i tot = some (n, t) ∧ t.toInt = offset size n := by
  induction k generalizing i tot with
  | zero =>
    obtain rfl : i = n := by omega
    exact ⟨tot, rfl, htot⟩
  | succ k ih =>
    have hi : i < transoptSize := by omega
    have hposi := hpos i (by omega)
    have hopti : opt ⟨i, hi⟩ = size i := hopt ⟨i, hi⟩ (by simp only; omega)
    have hne : opt ⟨i, hi⟩ ≠ 0 := by
      intro hz
      rw [hopti] at hz
      rw [hz] at hposi
      exact absurd hposi (by decide)
    have hnonneg : 0 ≤ offset size i := offset_nonneg hpos (by omega)
    have hnext : offset size (i + 1) ≤ offset size n := offset_le hpos (by omega) (le_refl n)
    rw [offset_succ] at hnext
    have htot' : (tot + opt ⟨i, hi⟩).toInt = offset size (i + 1) := by
      rw [hopti, offset_succ, toInt_add_of_lt (by omega) (by omega) (by omega), htot]
    obtain ⟨t, ht, hval⟩ := ih (by omega) htot'
    exact ⟨t, by simp only [sumSizesFrom, dif_pos hi, if_neg hne, ht], hval⟩

theorem Packed.total {h : HistData} {opt : Opt} {files : Fin transoptSize → FileRead}
    {alloc n k i : Nat} {p : Pack} (hP : Packed h opt files i p) (hn : n ≤ transoptSize)
    (hgood : ∀ j : Fin transoptSize, j.val < n → Good h opt files j)
    (hnames : (namesUpTo h n).length < scmdStrsiz)
    (hpay : (payloadUpTo opt files n).length ≤ alloc) (hk : i + k = n) :
    ∃ q, packFrom alloc h opt files k i p = some q := by
  induction k generalizing i p with
  | zero => exact ⟨p, rfl⟩
  | succ k ih =>
    have hi : i < transoptSize := by omega
    obtain ⟨path, bytes, hname, hread⟩ := hgood ⟨i, hi⟩ (by simp only; omega)
    have hnames' : (namesUpTo h (i + 1)).length ≤ (namesUpTo h n).length :=
      length_flatMap_take_le _ _ (by omega)
    have hpay' : (payloadUpTo opt files (i + 1)).length ≤ (payloadUpTo opt files n).length :=
      length_flatMap_take_le _ _ (by omega)
    simp only [namesUpTo, payloadUpTo, take_finRange_succ hi, List.flatMap_append,
      List.length_append, List.flatMap_cons, List.flatMap_nil, List.append_nil, hname, chunk,
      hread, Option.getD_some] at hnames' hpay'
    have htmp : p.tmpstr.length = (namesUpTo h i).length := by rw [hP.tmpstr]
    have hsep : ftstrSeparator.length = 1 := rfl
    have hstep : ∃ q, packFile alloc opt ⟨i, hi⟩ path (files ⟨i, hi⟩) p = some q := by
      cases hf : files ⟨i, hi⟩ with
      | noOpen => exact ⟨p, rfl⟩
      | noRead =>
        rw [hf] at hread
        cases hread
      | content content =>
        rw [hf] at hread
        simp only [namesUpTo, payloadUpTo] at hnames hpay htmp
        have hcat : strcat p.tmpstr path.bytes = some (p.tmpstr ++ path.bytes) :=
          if_pos (by omega)
        have hcat' : strcat (p.tmpstr ++ path.bytes) ftstrSeparator =
            some (p.tmpstr ++ path.bytes ++ ftstrSeparator) :=
          if_pos (by rw [List.length_append]; omega)
        have htot := hP.totsz
        simp only [payloadUpTo] at htot
        have hfill : p.fill alloc bytes = some (p.cp.write p.totsz bytes) :=
          if_pos (Or.inr ⟨by omega, by omega⟩)
        simp only [packFile, packOpened, hcat, hcat', hread, hfill, Option.bind_eq_bind,
          Option.bind_some]
        exact ⟨_, rfl⟩
    obtain ⟨q, hq⟩ := hstep
    obtain ⟨q', hq'⟩ := ih (hP.step hi hname hread hq) (by omega)
    refine ⟨q', ?_⟩
    simp only [packFrom, dif_pos hi, hname, hq, Option.bind_eq_bind, Option.bind_some]
    exact hq'

/-- A sync set of `n` types that can be sent as a whole, and a request for it. -/
structure Sendable (n : Nat) (h : HistData) (size : Nat → Int32) : Prop where
  pos : 1 ≤ n
  le : n ≤ transoptSize
  sync : ∀ i : Fin transoptSize, i.val < n → h.fname i ≠ none
  fits : (namesUpTo h n).length < scmdStrsiz
  asks : ∀ i < n, 0 < (size i).toInt
  sum : offset size n < 2 ^ 31

section Exchange
variable {n : Nat} {h : HistData} {size : Nat → Int32} {content : Fin transoptSize → List UInt8}

def filesOf (content : Fin transoptSize → List UInt8) : Fin transoptSize → FileRead :=
  fun i => .content (content i)

theorem request_opt (size : Nat → Int32) {n : Nat} {i : Fin transoptSize} (hi : i.val < n) :
    (request .get size n).opt i = size i.val := by
  have hi' : ((i.val : Nat) : Int) < (n : Int) := by exact_mod_cast hi
  simp only [request, if_pos hi']

variable (content) in
theorem Sendable.chunk_eq (hS : Sendable n h size) {i : Fin transoptSize} (hi : i.val < n) :
    chunk (request .get size n).opt (filesOf content) i =
      (content i).take (size i.val).toInt.toNat := by
  have hnn : ¬ size i.val < 0 := by
    have := hS.asks i.val hi
    rw [Int32.lt_iff_toInt_lt, Int32.toInt_zero]
    omega
  simp [chunk, filesOf, FileRead.read, request_opt size hi, hnn]

theorem Sendable.chunk_le (hS : Sendable n h size) {i : Fin transoptSize} (hi : i.val < n) :
    ((chunk (request .get size n).opt (filesOf content) i).length : Int) ≤ (size i.val).toInt := by
  have := hS.asks i.val hi
  rw [hS.chunk_eq content hi, List.length_take]
  omega

theorem Sendable.good (hS : Sendable n h size) {i : Fin transoptSize} (hi : i.val < n) :
    Good h (request .get size n).opt (filesOf content) i := by
  refine good_iff.mpr ⟨hS.sync i hi, trivial, ?_⟩
  have := hS.asks i.val hi
  rw [request_opt size hi, Int32.le_iff_toInt_le, Int32.toInt_zero]
  omega

variable (content) in
theorem Sendable.serve (hS : Sendable n h size) (heap : Memory) :
    ∃ rep, serveGet n h (request .get size n).opt (filesOf content) heap = some (n, some rep) ∧
      rep.totsz = (payloadUpTo (request .get size n).opt (filesOf content) n).length ∧
      rep.payload = payloadUpTo (request .get size n).opt (filesOf content) n ∧
      ∀ i : Fin transoptSize, i.val < n → rep.retval i =
        some (Int32.ofNat (chunk (request .get size n).opt (filesOf content) i).length) := by
  obtain ⟨t, hsum, hval⟩ : ∃ t, sumSizesFrom (request .get size n).opt n 0 0 = some (n, t) ∧
      t.toInt = offset size n :=
    sumSizesFrom_total hS.le hS.asks hS.sum (fun u hu => request_opt size hu) (Nat.zero_add n) rfl
  have hnonneg : 0 ≤ offset size n := offset_nonneg hS.asks (le_refl n)
  have hneg : ¬ t < 0 := by
    rw [Int32.lt_iff_toInt_lt, hval, Int32.toInt_zero]
    omega
  have hpay : ((payloadUpTo (request .get size n).opt (filesOf content) n).length : Int) ≤
      offset size n := payloadUpTo_length_le hS.le fun i hi => hS.chunk_le hi
  obtain ⟨q, hq⟩ : ∃ q, packFrom t.toInt.toNat h (request .get size n).opt (filesOf content) n 0
      (.start heap) = some q :=
    (packed_start heap).total hS.le (fun j hj => hS.good hj) hS.fits (by omega) (Nat.zero_add n)
  have hP := (packed_start heap).run (fun j _ hj => hS.good (by omega)) hq
  rw [Nat.zero_add] at hP
  have hne : q.tmpstr ≠ [] := by
    obtain ⟨path, hpath⟩ := Option.ne_none_iff_exists'.mp (hS.sync ⟨0, by decide⟩ hS.pos)
    have hle : (namesUpTo h 1).length ≤ (namesUpTo h n).length :=
      length_flatMap_take_le _ _ hS.pos
    have hone : 0 < (namesUpTo h 1).length := by
      simp only [namesUpTo, take_finRange_succ (by decide : 0 < transoptSize), List.take_zero,
        List.nil_append, List.flatMap_cons, List.flatMap_nil, List.append_nil, hpath]
      simp [ftstrSeparator]
    rw [hP.tmpstr]
    intro hnil
    rw [hnil, List.length_nil] at hle
    omega
  refine ⟨⟨h.date, q.tmpstr.dropLast, q.cp, q.totsz, q.retval⟩, ?_, hP.totsz, ?_, ?_⟩
  · simp only [serveGet, sumSizes, hsum, Option.bind_eq_bind, Option.bind_some, if_neg hneg, hq,
      if_neg hne]
  · simp only [GetReply.payload, hP.totsz, Int.toNat_natCast]
    exact hP.cp
  · intro i hi
    simp only [hP.retval i, if_pos hi]

end Exchange

/-! ## Over the wire -/

theorem find_strcmd (c : Cmd) :
    Cmd.all.find? (fun d => (cmdField c).take cmdSize = d.strcmd) = some c := by
  cases c <;> rfl

theorem getcmd_request {fuel : Nat} (hfuel : tcmdSize < fuel) (c : Cmd) (opts : Nat → Int32)
    (sz : Int) (more : List UInt8) (caps : Nat → Nat) (e : Ending) :
    ∃ s', trans_getcmd fuel ⟨(request c opts sz).encode .zero ++ more, caps, e⟩ =
      some ((c, some (request c opts sz).opt), s') ∧ s'.pending = more := by
  have hlen := TransCmd.encode_length (request c opts sz) .zero
  obtain ⟨s', hread, hpend, _⟩ := netread_of_le (by decide)
    (s := ⟨(request c opts sz).encode .zero ++ more, caps, e⟩) hfuel
    (by simp only [List.length_append, hlen]; omega)
  rw [List.take_left' hlen] at hread
  rw [List.drop_left' hlen] at hpend
  refine ⟨s', ?_, hpend⟩
  have hret : ¬ (tcmdSize : Int) ≤ 0 := by decide
  simp only [trans_getcmd, hread, Option.bind_eq_bind, Option.bind_some, if_neg hret,
    TransCmd.decode_encode]
  have hcmd : (request c opts sz).cmd = cmdField c := rfl
  rw [hcmd, find_strcmd]
  rfl

theorem replyget_sends {fuel : Nat} {totsz : Int} (hfuel : tcmdSize < fuel)
    (hfuel' : totsz.toNat < fuel) (htot : 0 ≤ totsz) (date : Nat) (fname : List UInt8)
    (buf : Memory) (retval : Fin transoptSize → Option Int32) (junk : Opt) (pad : Padding)
    (caps : Nat → Nat) :
    ∃ snk, trans_replyget fuel ⟨[], caps, none⟩ date fname buf totsz retval junk pad =
        some (totsz, snk) ∧
      snk.sent = (replyHeader date fname (Int32.ofInt totsz) retval junk).encode pad ++
        buf.read 0 totsz.toNat := by
  have hlen := TransCmd.encode_length (replyHeader date fname (Int32.ofInt totsz) retval junk) pad
  rw [← hlen] at hfuel
  rw [← Memory.read_length buf 0 totsz.toNat] at hfuel'
  obtain ⟨s₁, hwrite₁, hsent₁, hroom₁⟩ := netwrite_of_room (s := ⟨[], caps, none⟩) hfuel rfl
  obtain ⟨s₂, hwrite₂, hsent₂, _⟩ := netwrite_of_room hfuel' hroom₁
  have hcc : ¬ ((((replyHeader date fname (Int32.ofInt totsz) retval junk).encode pad).length : Int)
      < 0) := by omega
  refine ⟨s₂, ?_, by rw [hsent₂, hsent₁, List.nil_append]⟩
  simp only [trans_replyget, hwrite₁, Option.bind_eq_bind, Option.bind_some, if_neg hcc,
    if_neg (not_lt.mpr htot), hwrite₂, Memory.read_length, Int.toNat_of_nonneg htot]

/-- The client takes a well-announced reply from the stream, and nothing else. -/
theorem jitget_receives {fuel n : Nat} {size : Nat → Int32} {header : TransCmd}
    {chunk : Fin transoptSize → List UInt8} (hfuel : 2 ^ 31 < fuel)
    (hA : Announced size header.opt chunk n) (pad : Padding) (data : Memory) (rest : List UInt8)
    (outCaps inCaps : Nat → Nat) (e : Ending) :
    ∃ res out inp, _jitget fuel data size n ⟨[], outCaps, none⟩
        ⟨header.encode pad ++ (payloadFrom chunk n 0 ++ rest), inCaps, e⟩ = some (res, out, inp) ∧
      out.sent = (request .get size n).encode .zero ∧ res.ret = 0 ∧ inp.pending = rest ∧
      (∀ j : Fin transoptSize, j.val < n → res.size j.val = header.opt j ∧
        res.data.read (offset size j.val) (chunk j).length = chunk j) ∧
      ∀ a, (∀ j : Fin transoptSize, j.val < n →
        a < offset size j.val ∨ offset size j.val + (chunk j).length ≤ a) → res.data a = data a := by
  have hle := hA.le
  have hent : ¬ ((n : Int) > (transoptSize : Int)) := by omega
  have hsmall : tcmdSize < fuel := by
    unfold tcmdSize
    omega
  have hreq := TransCmd.encode_length (request .get size n) .zero
  obtain ⟨out, hwrite, hsent, _⟩ := netwrite_of_room (s := ⟨[], outCaps, none⟩)
    (hreq ▸ hsmall : ((request .get size n).encode .zero).length < fuel) rfl
  have hcc : ¬ ((((request .get size n).encode .zero).length : Int) < 0) := by omega
  have hlen := TransCmd.encode_length header pad
  obtain ⟨s₁, hread, hpend, _⟩ := netread_of_le (by decide)
    (s := ⟨header.encode pad ++ (payloadFrom chunk n 0 ++ rest), inCaps, e⟩) hsmall
    (by simp only [List.length_append, hlen]; omega)
  rw [List.take_left' hlen] at hread
  rw [List.drop_left' hlen] at hpend
  have hptr : (0 : Int32).toInt = offset size 0 := Int32.toInt_zero
  obtain ⟨data', size', inp, hloop, hrest, hregion, _, hframe⟩ :=
    jitgetEntries_scatter (m := data) hA (Nat.zero_add n) hfuel (fun _ _ _ => rfl) hptr hpend
  have hret : ¬ (tcmdSize : Int) ≤ 0 := by decide
  refine ⟨⟨0, some (strncpy header.str (scmdStrsiz - 1)), data', size'⟩, out, inp, ?_, ?_, rfl,
    hrest, fun j hj => hregion j (Nat.zero_le _) hj,
    fun a ha => hframe a fun j _ hj => ha j hj⟩
  · simp only [_jitget, netsendreq2, if_neg hent, hwrite, Option.bind_eq_bind, Option.bind_some,
      if_neg hcc, hread, if_neg hret, TransCmd.decode_encode, Int.toNat_natCast, hloop]
  · rw [hsent, List.nil_append]

/-- The GET round trip. For every sync set that can be sent as a whole and every request
for it, over streams cut into any pieces: the request of `_jitget` is recognised, the
reply of `transfer` is its header and its payload, `_jitget` takes exactly these from
the stream and returns `0`, the length of entry `i` is the smaller of what was requested
and what the file holds, region `i` starts with these bytes, and no other memory changes. -/
theorem get_round_trip {n fuel : Nat} {h : HistData} {size : Nat → Int32}
    (hS : Sendable n h size) (hfuel : 2 ^ 31 < fuel) (content : Fin transoptSize → List UInt8)
    (heap data : Memory) (junk : Opt) (pad : Padding) (more rest : List UInt8)
    (reqOut reqIn repOut repIn : Nat → Nat) (e e' : Ending) :
    ∃ opt srv rep header snk res out inp,
      trans_getcmd fuel ⟨out.sent ++ more, reqIn, e⟩ = some ((.get, some opt), srv) ∧
      serveGet n h opt (filesOf content) heap = some (n, some rep) ∧
      trans_replyget fuel ⟨[], repOut, none⟩ rep.date rep.tmpstr rep.cp rep.totsz rep.retval junk
        pad = some (rep.totsz, snk) ∧
      snk.sent = TransCmd.encode header pad ++ rep.payload ∧
      header.len.toInt = rep.payload.length ∧
      _jitget fuel data size n ⟨[], reqOut, none⟩ ⟨snk.sent ++ rest, repIn, e'⟩ =
        some (res, out, inp) ∧
      res.ret = 0 ∧ inp.pending = rest ∧
      (∀ i : Fin transoptSize, i.val < n →
        (res.size i.val).toInt = min (size i.val).toInt (content i).length ∧
        res.data.read (offset size i.val) (res.size i.val).toInt.toNat =
          (content i).take (res.size i.val).toInt.toNat) ∧
      ∀ a, (∀ i : Fin transoptSize, i.val < n →
        a < offset size i.val ∨ offset size i.val + (res.size i.val).toInt ≤ a) →
          res.data a = data a := by
  obtain ⟨rep, hserve, htot, hpayload, hretval⟩ := hS.serve content heap
  have hpay : ((payloadUpTo (request .get size n).opt (filesOf content) n).length : Int) ≤
      offset size n := payloadUpTo_length_le hS.le fun i hi => hS.chunk_le hi
  have hsum := hS.sum
  have hsmall : tcmdSize < fuel := by
    unfold tcmdSize
    omega
  have hlen : rep.totsz.toNat < fuel := by omega
  obtain ⟨snk, hreply, hsent⟩ := replyget_sends hsmall hlen (by omega) rep.date rep.tmpstr rep.cp
    rep.retval junk pad repOut
  -- the header announces the chunks
  have hA : Announced size
      (replyHeader rep.date rep.tmpstr (Int32.ofInt rep.totsz) rep.retval junk).opt
      (chunk (request .get size n).opt (filesOf content)) n := by
    refine ⟨hS.le, hS.asks, hS.sum, ?_, fun i hi => hS.chunk_le hi⟩
    intro i hi
    simp only [replyHeader, hretval i hi, Option.getD_some]
    exact toInt_ofNat_chunk _ _ i
  obtain ⟨res, out, inp, hget, hout, hret, hrest, hregion, hframe⟩ :=
    jitget_receives hfuel hA pad data rest reqOut repIn e'
  obtain ⟨srv, hcmd, _⟩ := getcmd_request hsmall .get size n more reqIn e
  have hcount : ∀ i : Fin transoptSize, i.val < n → (res.size i.val).toInt =
      (chunk (request .get size n).opt (filesOf content) i).length := by
    intro i hi
    rw [(hregion i hi).1]
    exact hA.opt i hi
  refine ⟨_, srv, rep, _, snk, res, out, inp, by rw [hout]; exact hcmd, hserve, hreply, hsent, ?_,
    ?_, hret, hrest, ?_, ?_⟩
  · rw [hpayload, ← htot]
    exact Int32.toInt_ofInt_of_le (by omega) (by omega)
  · rw [hsent, List.append_assoc]
    have hbuf : rep.cp.read 0 rep.totsz.toNat =
        payloadFrom (chunk (request .get size n).opt (filesOf content)) n 0 := hpayload
    rw [hbuf]
    exact hget
  · intro i hi
    have hasks := hS.asks i.val hi
    have hlen := congrArg List.length (hS.chunk_eq content hi)
    rw [List.length_take] at hlen
    have htake : (content i).take (res.size i.val).toInt.toNat =
        chunk (request .get size n).opt (filesOf content) i := by
      rw [hcount i hi, Int.toNat_natCast, hlen, ← List.take_take, List.take_length, hS.chunk_eq content hi]
    refine ⟨by rw [hcount i hi]; omega, ?_⟩
    rw [htake, hcount i hi, Int.toNat_natCast]
    exact (hregion i hi).2
  · intro a ha
    refine hframe a fun i hi => ?_
    rw [← hcount i hi]
    exact ha i hi

theorem get_round_trip_two :
    ∃ reply res out inp, _jitget (2 ^ 31 + 1) (fun _ => 0) (fun _ => 2) (2 : Nat)
        ⟨[], fun _ => 0, none⟩ ⟨reply ++ [9], fun i => i, .eof⟩ = some (res, out, inp) ∧
      res.ret = 0 ∧ inp.pending = [9] ∧ (res.size 0).toInt = 1 ∧ (res.size 1).toInt = 2 := by
  have hS : Sendable 2 ⟨7, ![some ⟨[97], by decide⟩, some ⟨[98], by decide⟩, none]⟩
      (fun _ => 2) := by
    refine ⟨by decide, by decide, ?_, by decide, fun _ _ => by decide, by decide⟩
    intro i hi
    fin_cases i
    · simp
    · simp
    · exact absurd hi (by decide)
  obtain ⟨_, _, _, _, snk, res, out, inp, _, _, _, _, _, hget, hret, hrest, hregion, _⟩ :=
    get_round_trip hS (Nat.lt_succ_self (2 ^ 31)) ![[1], [2, 3, 4], []] (fun _ => 0) (fun _ => 0)
      (fun _ => 0) .zero [] [9] (fun _ => 0) (fun _ => 5) (fun _ => 7) (fun i => i) .eof .eof
  exact ⟨snk.sent, res, out, inp, hget, hret, hrest, (hregion 0 (by decide)).1,
    (hregion 1 (by decide)).1⟩

end JitDt.Lwatcher
