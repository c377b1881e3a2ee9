import JitDt.Jitcclient.Read

/-!
# Broken connections

`netread` notices an error but not the end of the stream: a read of zero bytes leaves
the number of missing bytes as it was, and the loop goes round for ever. The client's
functions report some failures with a positive number and others not at all.
-/

namespace JitDt.Jitcclient

set_option autoImplicit false

/-! ## When `netread` returns -/

/-- What stops `netread`, on a stream whose bytes `sz` can count: all that was asked for,
or an error. -/
structure Stops (size : Nat) (s : Source) : Prop where
  counted : min size s.pending.length ≤ intMax
  stop : size ≤ s.pending.length ∨ s.ending = .error

instance decidableEnding (e : Ending) : Decidable (e = .error) :=
  match e with
  | .eof => isFalse nofun
  | .error => isTrue rfl

section Loop
variable {size fuel : Nat} {got : List UInt8} {s : Source}

/-- One turn of the loop while bytes are pending. -/
theorem recv_turn (hlt : got.length < size) (hp : s.pending ≠ []) :
    ∃ k s₁, 0 < k ∧ k ≤ s.pending.length ∧
      s.recv (size - got.length) = (some (s.pending.take k), s₁) ∧
      s₁.pending = s.pending.drop k ∧ s₁.ending = s.ending ∧
      (got ++ s.pending.take k).length = got.length + k ∧
      s₁.pending.length = s.pending.length - k := by
  obtain ⟨k, s₁, hk₀, -, hk, hrecv, hpend, hend⟩ := Source.recv_of_pos (Nat.sub_pos_of_lt hlt) hp
  refine ⟨k, s₁, hk₀, hk, hrecv, hpend, hend, ?_, ?_⟩
  · rw [List.length_append, List.length_take, Nat.min_eq_left hk]
  · rw [hpend, List.length_drop]

theorem netreadLoop_of_error (hmax : got.length + s.pending.length ≤ intMax)
    (hshort : got.length + s.pending.length < size) (hend : s.ending = .error)
    (hfuel : s.pending.length < fuel) :
    ∃ s', netreadLoop size fuel got s = some (⟨-1, got ++ s.pending⟩, s') := by
  induction fuel generalizing got s with
  | zero => omega
  | succ fuel ih =>
    by_cases hp : s.pending = []
    · refine ⟨s, ?_⟩
      have hrecv := Source.recv_end (s := s) (n := size - got.length) (by omega) hp
      rw [hend] at hrecv
      simp only [netreadLoop, hrecv, hp, List.append_nil]
    · obtain ⟨k, s₁, hk₀, hk, hrecv, hpend, hend₁, hlen, hrest⟩ :=
        @recv_turn size got s (by omega) hp
      obtain ⟨s', hloop⟩ := @ih (got ++ s.pending.take k) s₁ (by omega) (by omega)
        (hend₁.trans hend) (by omega)
      refine ⟨s', ?_⟩
      simp only [netreadLoop, hrecv, hlen]
      rw [if_neg (by omega), if_neg (by omega), hloop, hpend, List.append_assoc,
        List.take_append_drop]

/-- At the end of the stream the loop goes round, whatever the fuel. -/
theorem netreadLoop_of_eof (hshort : got.length + s.pending.length < size) (hend : s.ending = .eof) :
    netreadLoop size fuel got s = none := by
  induction fuel generalizing got s with
  | zero => rfl
  | succ fuel ih =>
    by_cases hp : s.pending = []
    · have hrecv := Source.recv_end (s := s) (n := size - got.length) (by omega) hp
      rw [hend] at hrecv
      rw [hp] at hshort
      simp only [netreadLoop, hrecv, List.append_nil]
      rw [if_neg (c := got.length = size) (by simp at hshort; omega), ih (by rw [hp]; exact hshort) hend]
      exact ite_self _
    · obtain ⟨k, s₁, _, hk, hrecv, hpend, hend₁, hlen, hrest⟩ :=
        @recv_turn size got s (by omega) hp
      simp only [netreadLoop, hrecv, hlen]
      rw [if_neg (c := got.length + k = size) (by omega),
        ih (by omega) (hend₁.trans hend)]
      exact ite_self _

/-- More bytes than an `int` counts are never read in one call. -/
theorem netreadLoop_of_overflow (hgot : got.length ≤ intMax)
    (hover : intMax < min size (got.length + s.pending.length)) :
    netreadLoop size fuel got s = none := by
  induction fuel generalizing got s with
  | zero => rfl
  | succ fuel ih =>
    have hp : s.pending ≠ [] := by
      rintro he
      rw [he] at hover
      simp at hover
      omega
    obtain ⟨k, s₁, _, hk, hrecv, hpend, _, hlen, hrest⟩ := @recv_turn size got s (by omega) hp
    simp only [netreadLoop, hrecv, hlen]
    split
    · rfl
    · rw [if_neg (by omega)]
      exact ih (by omega) (by omega)

end Loop

theorem netread_of_error {size fuel : Nat} {s : Source} (hmax : s.pending.length ≤ intMax)
    (hshort : s.pending.length < size) (hend : s.ending = .error) (hfuel : s.pending.length < fuel) :
    ∃ s', netread fuel size s = some (⟨-1, s.pending⟩, s') := by
  have h := @netreadLoop_of_error size fuel [] s (by simpa using hmax) (by simpa using hshort)
    hend hfuel
  simpa [netread] using h

theorem netread_of_not_stops {size fuel : Nat} {s : Source} (h : ¬ Stops size s) :
    netread fuel size s = none := by
  by_cases hover : intMax < min size s.pending.length
  · exact @netreadLoop_of_overflow _ _ [] _ (Nat.zero_le _) (by simpa using hover)
  · have hshort : ¬ (size ≤ s.pending.length ∨ s.ending = .error) := fun hs => h ⟨by omega, hs⟩
    push Not at hshort
    have heof : s.ending = .eof := by
      cases hend : s.ending with
      | eof => rfl
      | error => exact absurd hend hshort.2
    exact @netreadLoop_of_eof _ _ [] _ (by simpa using hshort.1) heof

/-- What `netread` does where it stops: it takes all it asked for, or fails. -/
theorem netread_of_stops {size fuel : Nat} {s : Source} (hfuel : intMax < fuel) (h : Stops size s) :
    ∃ r s', netread fuel size s = some (r, s') ∧
      ((size ≤ s.pending.length ∧ r = ⟨size, s.pending.take size⟩ ∧
          s'.pending = s.pending.drop size ∧ s'.ending = s.ending) ∨
        (s.pending.length < size ∧ r.ret = -1)) := by
  have hcount := h.counted
  by_cases hle : size ≤ s.pending.length
  · obtain ⟨s', hread, hpend, hend⟩ := @netread_of_le size fuel s (by omega) (by omega) hle
    exact ⟨_, s', hread, .inl ⟨hle, rfl, hpend, hend⟩⟩
  · have herr : s.ending = .error := h.stop.resolve_left hle
    obtain ⟨s', hread⟩ := @netread_of_error size fuel s (by omega) (not_le.mp hle) herr (by omega)
    exact ⟨_, s', hread, .inr ⟨not_le.mp hle, rfl⟩⟩

theorem netreadLoop_mono {size fuel fuel' : Nat} {got : List UInt8} {s : Source}
    {x : NetRead × Source} (hle : fuel ≤ fuel') (h : netreadLoop size fuel got s = some x) :
    netreadLoop size fuel' got s = some x := by
  induction fuel generalizing fuel' got s with
  | zero => cases h
  | succ fuel ih =>
    obtain ⟨fuel', rfl⟩ : ∃ f, fuel' = f + 1 := ⟨fuel' - 1, by omega⟩
    unfold netreadLoop at h ⊢
    split
    · rename_i hrecv
      rw [hrecv] at h
      exact h
    · rename_i bs s' hrecv
      rw [hrecv] at h
      dsimp only at h
      split
      · rename_i hover
        rw [if_pos hover] at h
        cases h
      · rename_i hover
        rw [if_neg hover] at h
        split
        · rename_i hdone
          rw [if_pos hdone] at h
          exact h
        · rename_i hdone
          rw [if_neg hdone] at h
          exact ih (by omega) h

/-- Everything a `netread` that returned can have done. -/
theorem netread_cases {size fuel : Nat} {s s' : Source} {r : NetRead}
    (h : netread fuel size s = some (r, s')) :
    Stops size s ∧ ((size ≤ s.pending.length ∧ r = ⟨size, s.pending.take size⟩ ∧
        s'.pending = s.pending.drop size ∧ s'.ending = s.ending) ∨
      (s.pending.length < size ∧ r.ret = -1)) := by
  have hstop : Stops size s := by
    by_contra hstop
    rw [netread_of_not_stops hstop] at h
    cases h
  obtain ⟨r₁, s₁, hread, hres⟩ := @netread_of_stops _ (fuel + (intMax + 1)) _ (by omega) hstop
  have hsame := netreadLoop_mono (Nat.le_add_right fuel (intMax + 1)) h
  obtain ⟨rfl, rfl⟩ := Prod.mk.inj (Option.some.inj (hread.symm.trans hsame))
  exact ⟨hstop, hres⟩

/-- `netread` ends, and tells a stream that ended early from a complete read. -/
def EndsRight (size : Nat) (s : Source) : Prop :=
  ∃ fuel r s', netread fuel size s = some (r, s') ∧ (s.pending.length < size → r.ret ≠ size)

/-- `trans_getcmd` takes the connection for closed. -/
def GivesUp (s : Source) : Prop := ∃ fuel opt s', trans_getcmd fuel s = some ((.exit, opt), s')

theorem endsRight_iff (size : Nat) (s : Source) : EndsRight size s ↔ Stops size s := by
  constructor
  · rintro ⟨fuel, r, s', hread, _⟩
    exact (netread_cases hread).1
  · intro hstop
    obtain ⟨r, s', hread, hres⟩ := netread_of_stops (Nat.lt_succ_self intMax) hstop
    refine ⟨_, r, s', hread, ?_⟩
    intro hshort
    rcases hres with ⟨hle, _⟩ | ⟨_, hret⟩
    · omega
    · omega

theorem givesUp_iff {s : Source} (hshort : s.pending.length < tcmdSize) :
    GivesUp s ↔ s.ending = .error := by
  constructor
  · rintro ⟨fuel, opt, s', hcmd⟩
    obtain ⟨⟨r, s₁⟩, hread, _⟩ := Option.bind_eq_some_iff.mp hcmd
    exact (netread_cases hread).1.stop.resolve_left (by omega)
  · intro hend
    obtain ⟨s', hread⟩ := @netread_of_error _ tcmdSize _ (by unfold tcmdSize intMax at *; omega)
      hshort hend hshort
    refine ⟨tcmdSize, none, s', ?_⟩
    simp only [trans_getcmd, hread, Option.bind_eq_bind, Option.bind_some]
    rfl

/-- `netread` ends as it should exactly on the streams that hold what it asks for or break
with an error, and the server leaves a closed connection only when it breaks with one. -/
theorem netread_ends_right_iff (size : Nat) (s : Source) :
    (EndsRight size s ↔ Stops size s) ∧
      (s.pending.length < tcmdSize → (GivesUp s ↔ s.ending = .error)) :=
  ⟨endsRight_iff size s, givesUp_iff⟩

/-- A client that dies within a header, so that the connection is reset. -/
theorem netread_ends_right_iff_cut : GivesUp ⟨[79, 80], fun _ => 0, .error⟩ :=
  ((netread_ends_right_iff tcmdSize ⟨[79, 80], fun _ => 0, .error⟩).2 (by decide)).mpr rfl

/-- A client that closes its connection between two requests keeps the server in `netread`. -/
theorem netread_spins_at_close :
    ¬ EndsRight tcmdSize ⟨[], fun _ => 0, .eof⟩ ∧ ¬ GivesUp ⟨[], fun _ => 0, .eof⟩ := by
  constructor
  · rw [endsRight_iff]
    exact fun h => absurd h.stop (by decide)
  · rw [givesUp_iff (by decide)]
    decide

/-! ## What the client's functions report -/

def afterHeader (s : Source) : Source := { s with pending := s.pending.drop tcmdSize }

/-- The header at the front of the stream, if it is there as a whole. -/
def headerOf (s : Source) : Option TransCmd := TransCmd.decode (s.pending.take tcmdSize)

theorem headerOf_eq_none_iff (s : Source) : headerOf s = none ↔ s.pending.length < tcmdSize := by
  unfold headerOf TransCmd.decode
  split
  · rename_i h
    rw [List.length_take] at h
    simp only [reduceCtorEq, false_iff]
    omega
  · rename_i h
    rw [List.length_take] at h
    simp only [true_iff]
    omega

theorem netsendreq_cases {fuel : Nat} (out : Sink) (c : Cmd) (opts : Nat → Int32) (sz : Int)
    (hfuel : tcmdSize < fuel) :
    ∃ cc out', netwrite fuel ((request c opts sz).encode .zero) out = some (cc, out') ∧
      (cc < 0 ↔ ¬ out.Takes tcmdSize) := by
  have hlen := TransCmd.encode_length (request c opts sz) .zero
  rw [← hlen] at hfuel ⊢
  by_cases ht : out.Takes ((request c opts sz).encode .zero).length
  · obtain ⟨out', hwrite, _⟩ := netwrite_of_takes hfuel ht
    refine ⟨_, out', hwrite, iff_of_false ?_ (not_not_intro ht)⟩
    omega
  · obtain ⟨out', hwrite⟩ := netwrite_of_breaks hfuel ht
    exact ⟨_, out', hwrite, iff_of_true (by decide) ht⟩

theorem netwriteLoop_mono {buf : List UInt8} {fuel fuel' sz : Nat} {s : Sink} {x : Int × Sink}
    (hle : fuel ≤ fuel') (h : netwriteLoop buf fuel sz s = some x) :
    netwriteLoop buf fuel' sz s = some x := by
  induction fuel generalizing fuel' sz s with
  | zero => cases h
  | succ fuel ih =>
    obtain ⟨fuel', rfl⟩ : ∃ f, fuel' = f + 1 := ⟨fuel' - 1, by omega⟩
    unfold netwriteLoop at h ⊢
    split
    · rename_i hsend
      rw [hsend] at h
      exact h
    · rename_i cc s' hsend
      rw [hsend] at h
      dsimp only at h
      split
      · rename_i hdone
        rw [if_pos hdone] at h
        exact h
      · rename_i hdone
        rw [if_neg hdone] at h
        exact ih (by omega) h

theorem netwrite_not_neg {fuel : Nat} {c : TransCmd} {pad : Padding} {s s' : Sink} {cc : Int}
    (ht : s.Takes tcmdSize) (h : netwrite fuel (c.encode pad) s = some (cc, s')) : ¬ cc < 0 := by
  have hlen := TransCmd.encode_length c pad
  rw [← hlen] at ht
  obtain ⟨s₁, hwrite, _⟩ := @netwrite_of_takes _ (fuel + (tcmdSize + 1)) _ (by omega) ht
  have hsame := netwriteLoop_mono (Nat.le_add_right fuel (tcmdSize + 1)) h
  obtain ⟨rfl, _⟩ := Prod.mk.inj (Option.some.inj (hwrite.symm.trans hsame))
  omega

/-- The request, the header or the announced payload does not go through. -/
def ReadFails (out : Sink) (inp : Source) : Prop :=
  ¬ out.Takes tcmdSize ∨ headerOf inp = none ∨
    ∃ tcmd, headerOf inp = some tcmd ∧ (afterHeader inp).pending.length < sizeT tcmd.len

def ReadReported (size : Nat) (out : Sink) (inp : Source) : Prop :=
  ∃ fuel res out' inp', _jitread fuel size out inp = some (res, out', inp') ∧
    (ReadFails out inp → res.ret < 0) ∧ (0 ≤ res.ret → res.ret = res.stored.length)

/-- The failure is one `_jitread` notices: the request cannot be sent, or the payload
ends with an error. -/
def ReadHeard (out : Sink) (inp : Source) : Prop :=
  ¬ out.Takes tcmdSize ∨ ∃ tcmd, headerOf inp = some tcmd ∧ Stops (sizeT tcmd.len) (afterHeader inp)

theorem stops_congr {size : Nat} {s t : Source} (hp : s.pending = t.pending)
    (he : s.ending = t.ending) : Stops size s ↔ Stops size t := by
  constructor
  · rintro ⟨hc, hs⟩
    exact ⟨hp ▸ hc, hp ▸ he ▸ hs⟩
  · rintro ⟨hc, hs⟩
    exact ⟨hp.symm ▸ hc, hp.symm ▸ he.symm ▸ hs⟩

/-- A header that was read is the one at the front, and the rest is left. -/
theorem netread_header {fuel : Nat} {s s' : Source} {r : NetRead}
    (h : netread fuel tcmdSize s = some (r, s')) (hpos : 0 < r.ret) :
    (∃ tcmd, headerOf s = some tcmd ∧ TransCmd.decode r.stored = some tcmd) ∧
      s'.pending = (afterHeader s).pending ∧ s'.ending = (afterHeader s).ending := by
  rcases (netread_cases h).2 with ⟨hle, rfl, hpend, hend⟩ | ⟨_, hret⟩
  · obtain ⟨tcmd, hhead⟩ : ∃ tcmd, headerOf s = some tcmd := by
      apply Option.ne_none_iff_exists'.mp
      rw [Ne, headerOf_eq_none_iff]
      omega
    exact ⟨⟨tcmd, hhead, hhead⟩, hpend, hend⟩
  · omega

theorem readReported_of_readHeard {size : Nat} {out : Sink} {inp : Source}
    (h : ReadHeard out inp) : ReadReported size out inp := by
  obtain ⟨cc, out', hsend, hcc⟩ := @netsendreq_cases (intMax + 1) out .read
    (threeOpts (Int32.ofNat size) 0 0) 3 (by decide)
  by_cases ht : out.Takes tcmdSize
  · obtain ⟨tcmd, hhead, hstop⟩ := h.resolve_left (not_not_intro ht)
    have hle : tcmdSize ≤ inp.pending.length := by
      by_contra hlt
      rw [(headerOf_eq_none_iff inp).mpr (by omega)] at hhead
      cases hhead
    obtain ⟨inp₁, hread, hpend, hend⟩ := @netread_of_le _ (intMax + 1) inp
      (by decide : tcmdSize ≤ intMax) (by decide) hle
    have hstop₁ : Stops (sizeT tcmd.len) inp₁ :=
      (stops_congr (t := afterHeader inp) hpend hend).mpr hstop
    obtain ⟨r, inp₂, hread₂, hres⟩ := netread_of_stops (Nat.lt_succ_self intMax) hstop₁
    refine ⟨intMax + 1, ⟨r.ret, r.stored⟩, out', inp₂, ?_, ?_, ?_⟩
    · have hneg : ¬ cc < 0 := fun hc => hcc.mp hc ht
      have hret : ¬ (tcmdSize : Int) ≤ 0 := by decide
      have hdec : TransCmd.decode (inp.pending.take tcmdSize) = some tcmd := hhead
      simp only [_jitread, netsendreq, hsend, Option.bind_eq_bind, Option.bind_some, if_neg hneg,
        hread, if_neg hret, hdec, hread₂]
    · intro hfail
      rcases hfail with hno | hnone | ⟨tcmd', hhead', hshort⟩
      · exact absurd ht hno
      · rw [hhead] at hnone
        cases hnone
      · obtain rfl : tcmd = tcmd' := Option.some.inj (hhead.symm.trans hhead')
        have hshort₁ : inp₁.pending.length < sizeT tcmd.len := by
          rw [hpend]
          exact hshort
        rcases hres with ⟨hall, _⟩ | ⟨_, hret⟩
        · omega
        · show r.ret < 0
          omega
    · intro hpos
      change 0 ≤ r.ret at hpos
      rcases hres with ⟨hall, rfl, _⟩ | ⟨_, hret⟩
      · simp only [List.length_take, Nat.min_eq_left hall]
      · omega
  · refine ⟨intMax + 1, ⟨-1, []⟩, out', inp, ?_, fun _ => by decide, fun h => absurd h (by decide)⟩
    simp only [_jitread, netsendreq, hsend, Option.bind_eq_bind, Option.bind_some, if_pos (hcc.mpr ht)]

theorem headerOf_of_failed {fuel : Nat} {inp inp₁ : Source} {r : NetRead}
    (hread : netread fuel tcmdSize inp = some (r, inp₁)) (hret : r.ret ≤ 0) :
    headerOf inp = none := by
  rw [headerOf_eq_none_iff]
  rcases (netread_cases hread).2 with ⟨_, rfl, _⟩ | ⟨hshort, _⟩
  · have hpos : ¬ (tcmdSize : Int) ≤ 0 := by decide
    exact absurd hret hpos
  · exact hshort

theorem readReported_iff (size : Nat) (out : Sink) (inp : Source) :
    ReadReported size out inp ↔ ReadHeard out inp := by
  refine ⟨?_, readReported_of_readHeard⟩
  rintro ⟨fuel, res, out', inp', hrun, hfail, _⟩
  by_cases ht : out.Takes tcmdSize
  swap
  · exact .inl ht
  obtain ⟨⟨cc, out₁⟩, hsend, hrun⟩ := Option.bind_eq_some_iff.mp hrun
  have hcc : ¬ cc < 0 := netwrite_not_neg ht hsend
  dsimp only at hrun
  rw [if_neg hcc] at hrun
  obtain ⟨⟨r, inp₁⟩, hread, hrun⟩ := Option.bind_eq_some_iff.mp hrun
  dsimp only at hrun
  split at hrun
  · -- no header: the number returned is that of `CMD_EXIT`
    rename_i hret
    have hnone := headerOf_of_failed hread hret
    obtain ⟨rfl, _⟩ := Prod.mk.inj (Option.some.inj hrun)
    exact absurd (hfail (.inr (.inl hnone))) (by decide)
  · rename_i hret
    obtain ⟨⟨tcmd, hhead, hdec⟩, hpend, hend⟩ := netread_header hread (by omega)
    obtain ⟨tcmd', hdec', hrun⟩ := Option.bind_eq_some_iff.mp hrun
    obtain rfl : tcmd = tcmd' := Option.some.inj (hdec.symm.trans hdec')
    obtain ⟨⟨r', inp₂⟩, hread₂, _⟩ := Option.bind_eq_some_iff.mp hrun
    exact .inr ⟨tcmd, hhead,
      (stops_congr (t := afterHeader inp) hpend hend).mp (netread_cases hread₂).1⟩

/-! ## GET -/

def regionSize (opt : Opt) (i : Nat) : Nat :=
  if h : i < transoptSize then sizeT (opt ⟨i, h⟩) else 0

/-- The number of entries `_jitget` asks for. -/
def entries (ent : Int) : Nat :=
  (if ent > (transoptSize : Int) then (transoptSize : Int) else ent).toNat

theorem entries_le (ent : Int) : entries ent ≤ transoptSize := by
  unfold entries
  split <;> omega

/-- The header and all the regions it announces are on the stream. -/
def GetComplete (ent : Int) (inp : Source) : Prop :=
  ∃ tcmd, headerOf inp = some tcmd ∧
    ∑ i ∈ Finset.range (entries ent), regionSize tcmd.opt i ≤ (afterHeader inp).pending.length

def GetFails (ent : Int) (out : Sink) (inp : Source) : Prop :=
  ¬ out.Takes tcmdSize ∨ ¬ GetComplete ent inp

def GetReported (data : Memory) (size : Nat → Int32) (ent : Int) (out : Sink) (inp : Source) :
    Prop :=
  ∃ fuel res out' inp', _jitget fuel data size ent out inp = some (res, out', inp') ∧
    (GetFails ent out inp → res.ret < 0) ∧ (0 ≤ res.ret → GetComplete ent inp)

/-- `_jitget` notices no failure but that of its request. -/
def GetHeard (ent : Int) (out : Sink) (inp : Source) : Prop :=
  ¬ out.Takes tcmdSize ∨ ∃ tcmd, headerOf inp = some tcmd ∧
    ∑ i ∈ Finset.range (entries ent), regionSize tcmd.opt i ≤ (afterHeader inp).pending.length ∧
    ∀ i < entries ent, regionSize tcmd.opt i ≤ intMax

section Entries
variable {fuel k i : Nat} {opt : Opt} {ptr : Int32} {data : Memory} {size : Nat → Int32} {s : Source}

theorem regionSize_of_lt {i : Nat} (hi : i < transoptSize) (opt : Opt) :
    regionSize opt i = sizeT (opt ⟨i, hi⟩) := dif_pos hi

theorem jitgetEntries_complete (hfuel : intMax < fuel) (hk : i + k ≤ transoptSize)
    (hall : ∑ j ∈ Finset.Ico i (i + k), regionSize opt j ≤ s.pending.length)
    (hsmall : ∀ j, i ≤ j → j < i + k → regionSize opt j ≤ intMax) :
    ∃ r, jitgetEntries fuel opt k i ptr data size s = some r := by
  induction k generalizing i ptr data size s with
  | zero => exact ⟨_, rfl⟩
  | succ k ih =>
    have hi : i < transoptSize := by omega
    rw [Finset.sum_eq_sum_Ico_succ_bot (by omega)] at hall
    have hthis := hsmall i (le_refl i) (by omega)
    rw [regionSize_of_lt hi] at hall hthis
    obtain ⟨s', hread, hpend, _⟩ := @netread_of_le _ fuel s hthis (by omega) (by omega)
    have hrest : ∑ j ∈ Finset.Ico (i + 1) (i + 1 + k), regionSize opt j ≤ s'.pending.length := by
      rw [hpend, List.length_drop, show i + 1 + k = i + (k + 1) by omega]
      omega
    simp only [jitgetEntries, dif_pos hi, hread, Option.bind_eq_bind, Option.bind_some]
    exact ih (by omega) hrest fun j hij hj => hsmall j (by omega) (by omega)

theorem jitgetEntries_small {r : (Memory × (Nat → Int32)) × Source}
    (h : jitgetEntries fuel opt k i ptr data size s = some r)
    (hall : ∑ j ∈ Finset.Ico i (i + k), regionSize opt j ≤ s.pending.length) :
    ∀ j, i ≤ j → j < i + k → regionSize opt j ≤ intMax := by
  induction k generalizing i ptr data size s with
  | zero =>
    intro j hij hj
    omega
  | succ k ih =>
    unfold jitgetEntries at h
    split at h
    · rename_i hi
      obtain ⟨⟨r', s'⟩, hread, hloop⟩ := Option.bind_eq_some_iff.mp h
      rw [Finset.sum_eq_sum_Ico_succ_bot (by omega)] at hall
      rw [regionSize_of_lt hi] at hall
      obtain ⟨hstop, hres⟩ := netread_cases hread
      have hcount := hstop.counted
      rcases hres with ⟨_, _, hpend, _⟩ | ⟨hshort, _⟩
      · have hrest : ∑ j ∈ Finset.Ico (i + 1) (i + 1 + k), regionSize opt j ≤ s'.pending.length := by
          rw [hpend, List.length_drop, show i + 1 + k = i + (k + 1) by omega]
          omega
        intro j hij hj
        rcases hij.eq_or_lt with rfl | hlt
        · rw [regionSize_of_lt hi]
          omega
        · exact ih hloop hrest j hlt (by omega)
      · omega
    · cases h

end Entries

theorem getReported_of_getHeard {data : Memory} {size : Nat → Int32} {ent : Int} {out : Sink}
    {inp : Source} (h : GetHeard ent out inp) : GetReported data size ent out inp := by
  obtain ⟨cc, out', hsend, hcc⟩ := @netsendreq_cases (intMax + 1) out .get size
    (if ent > (transoptSize : Int) then (transoptSize : Int) else ent) (by decide)
  have hclip : ¬ (transoptSize : Int) <
      (if ent > (transoptSize : Int) then (transoptSize : Int) else ent) := by
    split <;> omega
  by_cases ht : out.Takes tcmdSize
  · obtain ⟨tcmd, hhead, hall, hsmall⟩ := h.resolve_left (not_not_intro ht)
    have hle : tcmdSize ≤ inp.pending.length := by
      by_contra hlt
      rw [(headerOf_eq_none_iff inp).mpr (by omega)] at hhead
      cases hhead
    obtain ⟨inp₁, hread, hpend, _⟩ := @netread_of_le _ (intMax + 1) inp
      (by decide : tcmdSize ≤ intMax) (by decide) hle
    have hall₁ : ∑ j ∈ Finset.Ico 0 (0 + entries ent), regionSize tcmd.opt j ≤
        inp₁.pending.length := by
      rw [hpend, Nat.zero_add, ← Finset.range_eq_Ico]
      exact hall
    obtain ⟨⟨⟨data', size'⟩, inp₂⟩, hloop⟩ := @jitgetEntries_complete _ _ _ _ 0 data
      size _ (Nat.lt_succ_self intMax)
      (by rw [Nat.zero_add]; exact entries_le ent) hall₁ fun j _ hj => hsmall j (by omega)
    refine ⟨intMax + 1, ⟨0, some (strncpy tcmd.str (scmdStrsiz - 1)), data', size'⟩, out', inp₂, ?_,
      ?_, fun _ => ⟨tcmd, hhead, hall⟩⟩
    · have hneg : ¬ cc < 0 := fun hc => hcc.mp hc ht
      have hret : ¬ (tcmdSize : Int) ≤ 0 := by decide
      have hdec : TransCmd.decode (inp.pending.take tcmdSize) = some tcmd := hhead
      change jitgetEntries _ _ (Int.toNat _) _ _ _ _ _ = _ at hloop
      simp only [_jitget, netsendreq2, if_neg hclip, hsend, Option.bind_eq_bind, Option.bind_some,
        if_neg hneg, hread, if_neg hret, hdec, hloop]
    · rintro (hno | hincomplete)
      · exact absurd ht hno
      · exact absurd ⟨tcmd, hhead, hall⟩ hincomplete
  · have hneg : cc < 0 := hcc.mpr ht
    refine ⟨intMax + 1, ⟨cc, none, data, size⟩, out', inp, ?_, fun _ => hneg,
      fun hpos => absurd hneg (by simpa using hpos)⟩
    simp only [_jitget, netsendreq2, if_neg hclip, hsend, Option.bind_eq_bind, Option.bind_some,
      if_pos hneg]

theorem getReported_iff (data : Memory) (size : Nat → Int32) (ent : Int) (out : Sink) (inp : Source) :
    GetReported data size ent out inp ↔ GetHeard ent out inp := by
  refine ⟨?_, getReported_of_getHeard⟩
  rintro ⟨fuel, res, out', inp', hrun, _, hcomplete⟩
  by_cases ht : out.Takes tcmdSize
  swap
  · exact .inl ht
  have hclip : ¬ (transoptSize : Int) <
      (if ent > (transoptSize : Int) then (transoptSize : Int) else ent) := by
    split <;> omega
  simp only [_jitget, netsendreq2, if_neg hclip] at hrun
  obtain ⟨⟨cc, out₁⟩, hsend, hrun⟩ := Option.bind_eq_some_iff.mp hrun
  have hcc : ¬ cc < 0 := netwrite_not_neg ht hsend
  dsimp only at hrun
  rw [if_neg hcc] at hrun
  obtain ⟨⟨r, inp₁⟩, hread, hrun⟩ := Option.bind_eq_some_iff.mp hrun
  dsimp only at hrun
  split at hrun
  · -- no header: the number returned is that of `CMD_EXIT`
    rename_i hret
    obtain ⟨rfl, _⟩ := Prod.mk.inj (Option.some.inj hrun)
    obtain ⟨tcmd, hhead, _⟩ := hcomplete (show (0 : Int) ≤ Cmd.exit.toInt by decide)
    rw [headerOf_of_failed hread hret] at hhead
    cases hhead
  · rename_i hret
    obtain ⟨⟨tcmd, hhead, hdec⟩, hpend, _⟩ := netread_header hread (by omega)
    obtain ⟨tcmd', hdec', hrun⟩ := Option.bind_eq_some_iff.mp hrun
    obtain rfl : tcmd = tcmd' := Option.some.inj (hdec.symm.trans hdec')
    obtain ⟨⟨⟨data', size'⟩, inp₂⟩, hloop, hrun⟩ := Option.bind_eq_some_iff.mp hrun
    obtain ⟨rfl, _⟩ := Prod.mk.inj (Option.some.inj hrun)
    obtain ⟨tcmd', hhead', hall⟩ := hcomplete (le_refl _)
    obtain rfl : tcmd = tcmd' := Option.some.inj (hhead.symm.trans hhead')
    refine .inr ⟨tcmd, hhead, hall, ?_⟩
    have hall₁ : ∑ j ∈ Finset.Ico 0 (0 + entries ent), regionSize tcmd.opt j ≤
        inp₁.pending.length := by
      rw [hpend, Nat.zero_add, ← Finset.range_eq_Ico]
      exact hall
    intro i hi
    exact jitgetEntries_small hloop hall₁ i (Nat.zero_le i) (by rw [Nat.zero_add]; exact hi)

/-- The client's functions report a failure exactly where they notice it: `_jitread` when
the request cannot be sent or the payload breaks with an error, `_jitget` only when its
request cannot be sent. -/
theorem failures_reported_iff (out : Sink) (inp : Source) (n : Nat) (data : Memory)
    (size : Nat → Int32) (ent : Int) :
    (ReadReported n out inp ↔ ReadHeard out inp) ∧
      (GetReported data size ent out inp ↔ GetHeard ent out inp) :=
  ⟨readReported_iff n out inp, getReported_iff data size ent out inp⟩

/-- The connection breaks after the request was sent, before any reply. -/
theorem failures_unreported_no_header :
    ¬ ReadReported 1 ⟨[], fun _ => 0, none⟩ ⟨[], fun _ => 0, .error⟩ ∧
      ¬ GetReported (fun _ => 0) (fun _ => 1) 1 ⟨[], fun _ => 0, none⟩ ⟨[], fun _ => 0, .error⟩ := by
  have ht : (Sink.mk [] (fun _ => 0) none).Takes tcmdSize := Sink.takes_of_room rfl _
  have hnone : headerOf ⟨[], fun _ => 0, .error⟩ = none := (headerOf_eq_none_iff _).mpr (by decide)
  constructor
  · rw [readReported_iff]
    rintro (hno | ⟨tcmd, hhead, _⟩)
    · exact hno ht
    · rw [hnone] at hhead
      cases hhead
  · rw [getReported_iff]
    rintro (hno | ⟨tcmd, hhead, _⟩)
    · exact hno ht
    · rw [hnone] at hhead
      cases hhead

end JitDt.Jitcclient
