import JitDt.Jitclient.Mpi
import JitDt.Lib.Broadcast

/-!
# Sessions of the MPI build

All ranks make the same calls. Rank 0 makes each of them as the serial build does and broadcasts
what it has got; the other ranks take part in the broadcasts when they come to them, and find in each
how many of them there will be. `MPI_Bcast` leaves the order of the broadcasts as it is, and one with
another count or type than that of rank 0 is an error.
-/

namespace JitDt.Jitclient

set_option autoImplicit false

open Jitcclient Broadcast
open Machine (exec)

/-! ## The calls -/

inductive Msg where
  | int (v : Int32)
  | ints (vs : List Int32)
  | bytes (bs : List UInt8)

/-- What a call gives rank 0: the code, and the name or the buffer behind it. -/
inductive Result where
  | jitopen (sock : Int32) (fname : Option CStr)
  | jitclose (cc : Int32)
  | jitread (sz : Int32) (buf : Memory)
  | jitget (bsize : Nat → Int32) (entries : Nat) (g : Got)

/-- The call as all ranks make it. -/
inductive Call where
  | jitopen
  | jitclose
  | jitread
  | jitget (bsize : Nat → Int32) (entries : Nat)

def Result.call : Result → Call
  | .jitopen _ _ => .jitopen
  | .jitclose _ => .jitclose
  | .jitread _ _ => .jitread
  | .jitget bsize entries _ => .jitget bsize entries

/-- What the caller finds: the code, and the name, the bytes read, or the sizes and the regions. -/
inductive Seen where
  | jitopen (sock : Int32) (fname : List UInt8)
  | jitclose (cc : Int32)
  | jitread (sz : Int32) (bytes : List UInt8)
  | jitget (cc : Int32) (sizes : List Int32) (regions : List (List UInt8))

def Seen.code : Seen → Int32
  | .jitopen sock _ => sock
  | .jitclose cc => cc
  | .jitread sz _ => sz
  | .jitget cc _ _ => cc

/-- What the caller finds in the serial build. -/
def Result.serial : Result → Seen
  | .jitopen sock fname => .jitopen sock (fname.elim [] CStr.bytes)
  | .jitclose cc => .jitclose cc
  | .jitread sz buf => .jitread sz (buf.read 0 sz.toInt.toNat)
  | .jitget bsize entries g => .jitget g.cc ((List.range entries).map g.rsize)
    ((List.range entries).map fun i => g.data.read (offset bsize i) (g.rsize i).toInt.toNat)

/-! ## Rank 0 -/

/-- The broadcasts of the regions, from entry `i` on. -/
def regionMsgs (rsize : Nat → Int32) : Nat → Nat → Rank → List Msg
  | 0, _, _ => []
  | k + 1, i, w =>
    if rsize i > 0 then
      .bytes (w.data.read w.ptr (rsize i).toInt.toNat) ::
        regionMsgs rsize k (i + 1)
          ⟨w.data, Function.update w.bsize i (rsize i), w.ptr + (w.bsize i).toInt⟩
    else regionMsgs rsize k (i + 1) w

def Result.msgs : Result → List Msg
  | .jitopen sock fname =>
    let sz := Int32.ofNat (fname.elim 0 fun s => s.bytes.length)
    .int sock :: .int sz :: if sz > 0 then [.bytes (fname.elim [] CStr.bytes)] else []
  | .jitclose cc => [.int cc]
  | .jitread sz buf => .int sz :: if sz > 0 then [.bytes (buf.read 0 sz.toInt.toNat)] else []
  | .jitget bsize entries g =>
    if entries > transoptSize then []
    else .int g.cc :: .ints ((List.range entries).map g.rsize) ::
      regionMsgs g.rsize entries 0 ⟨g.data, bsize, 0⟩

/-! ## The other ranks -/

/-- The buffers of a rank, and what its calls have shown. -/
structure Proc where
  fname : List UInt8
  data : Memory
  seen : List Seen

section Readers
variable {R : Type}

def recvInt (k : Int32 → Reader Msg R) : Reader Msg R :=
  .wait fun m =>
    match m with
    | .int v => k v
    | _ => .refused

def recvInts (n : Nat) (k : List Int32 → Reader Msg R) : Reader Msg R :=
  .wait fun m =>
    match m with
    | .ints vs => if vs.length = n then k vs else .refused
    | _ => .refused

def recvBytes (n : Nat) (k : List UInt8 → Reader Msg R) : Reader Msg R :=
  .wait fun m =>
    match m with
    | .bytes bs => if bs.length = n then k bs else .refused
    | _ => .refused

@[simp] theorem feed_recvInt (v : Int32) (k : Int32 → Reader Msg R) (ms : List Msg) :
    (recvInt k).feed (.int v :: ms) = (k v).feed ms := rfl

theorem feed_recvInts {n : Nat} {vs : List Int32} (h : vs.length = n)
    (k : List Int32 → Reader Msg R) (ms : List Msg) :
    (recvInts n k).feed (.ints vs :: ms) = (k vs).feed ms := by
  simp [recvInts, Reader.feed, h]

theorem feed_recvBytes {n : Nat} {bs : List UInt8} (h : bs.length = n)
    (k : List UInt8 → Reader Msg R) (ms : List Msg) :
    (recvBytes n k).feed (.bytes bs :: ms) = (k bs).feed ms := by
  simp [recvBytes, Reader.feed, h]

end Readers

/-- The loop of `jitget` from entry `i` on. Nothing follows an overflow of `ptr`. -/
def regions (rsize : Nat → Int32) : Nat → Nat → Rank → Reader Msg Rank
  | 0, _, w => .done w
  | k + 1, i, w =>
    if rsize i > 0 then
      recvBytes (rsize i).toInt.toNat fun bs =>
        if w.ptr + (w.bsize i).toInt < 2 ^ 31 then
          regions rsize k (i + 1) ⟨w.data.write w.ptr bs, Function.update w.bsize i (rsize i),
            w.ptr + (w.bsize i).toInt⟩
        else .refused
    else regions rsize k (i + 1) w

def Proc.show (s : Proc) (x : Seen) : Reader Msg Proc := .done { s with seen := s.seen ++ [x] }

def rankCall : Call → Proc → Reader Msg Proc
  | .jitopen, s =>
    recvInt fun sock => recvInt fun sz =>
      if sz > 0 then
        recvBytes sz.toInt.toNat fun bs => { s with fname := cstrOf bs }.show (.jitopen sock (cstrOf bs))
      else s.show (.jitopen sock s.fname)
  | .jitclose, s => recvInt fun cc => s.show (.jitclose cc)
  | .jitread, s =>
    recvInt fun sz =>
      if sz > 0 then
        recvBytes sz.toInt.toNat fun bs =>
          { s with data := s.data.write 0 bs }.show
            (.jitread sz ((s.data.write 0 bs).read 0 sz.toInt.toNat))
      else s.show (.jitread sz [])
  | .jitget bsize entries, s =>
    if entries > transoptSize then s.show (.jitget (-1) [] [])
    else
      recvInt fun cc => recvInts entries fun rsize =>
        (regions (fun i => rsize.getD i 0) entries 0 ⟨s.data, bsize, 0⟩).bind fun w =>
          { s with data := w.data }.show (.jitget cc ((List.range entries).map w.bsize)
            ((List.range entries).map fun i =>
              w.data.read (offset bsize i) (w.bsize i).toInt.toNat))

/-! ## The loop and the ranks in step -/

section Regions
variable {rsize rsize' : Nat → Int32} {bsize : Nat → Int32} {i k : Nat}

theorem regions_congr (h : ∀ j, i ≤ j → j < i + k → rsize j = rsize' j) (w : Rank) :
    regions rsize k i w = regions rsize' k i w := by
  induction k generalizing i w with
  | zero => rfl
  | succ k ih =>
    unfold regions
    rw [h i le_rfl (by omega)]
    have hrest : ∀ w, regions rsize k (i + 1) w = regions rsize' k (i + 1) w :=
      fun w => ih (fun j hj hlt => h j (by omega) (by omega)) w
    simp only [hrest]

/-- A rank that reads the broadcasts of rank 0 when it likes ends like one that keeps in step. -/
theorem regions_feed {W W' : World 1} (h : jitgetFrom rsize k i W = some W') :
    (regions rsize k i (W 1)).feed (regionMsgs rsize k i (W 0)) = .done (W' 1) := by
  induction k generalizing i W with
  | zero =>
    cases h
    rfl
  | succ k ih =>
    unfold jitgetFrom at h
    unfold regions regionMsgs
    by_cases hpos : rsize i > 0
    · rw [if_pos hpos] at h ⊢
      rw [if_pos hpos]
      obtain ⟨W₁, hadv, hrest⟩ := Option.bind_eq_some_iff.mp h
      have hone := ih hrest
      unfold advance at hadv
      split at hadv
      · rename_i hfit
        have hroom : (W 1).ptr + ((W 1).bsize i).toInt < 2 ^ 31 := hfit 1
        rw [feed_recvBytes (Memory.read_length _ _ _), if_pos hroom]
        rw [← Option.some.inj hadv] at hone
        simp only [bcast, root, Memory.write_read] at hone
        exact hone
      · cases hadv
    · rw [if_neg hpos] at h ⊢
      rw [if_neg hpos]
      exact ih h

/-- The pointer never gets past the requested sizes. -/
theorem jitgetFrom_total {n m : Nat} {W : World n} (hpos : ∀ j < m, 0 ≤ (bsize j).toInt)
    (hsum : offset bsize m < 2 ^ 31) (hm : i + k = m) (hptr : ∀ p, (W p).ptr ≤ offset bsize i)
    (hsame : ∀ p j, i ≤ j → (W p).bsize j = bsize j) : ∃ W', jitgetFrom rsize k i W = some W' := by
  induction k generalizing i W with
  | zero => exact ⟨W, rfl⟩
  | succ k ih =>
    have hnext : ∀ p, (W p).ptr + ((W p).bsize i).toInt ≤ offset bsize (i + 1) := by
      intro p
      rw [offset_succ, hsame p i le_rfl]
      exact Int.add_le_add_right (hptr p) _
    have hlast : offset bsize (i + 1) ≤ offset bsize m := offset_mono hpos (by omega) le_rfl
    unfold jitgetFrom
    by_cases hsize : rsize i > 0
    · rw [if_pos hsize]
      obtain ⟨W₁, hadv⟩ := @advance_total n i (rsize i) (bcast (rsize i).toInt.toNat W)
        fun p => ((hnext p).trans hlast).trans_lt hsum
      obtain ⟨-, hfields⟩ := advance_eq_some hadv
      rw [hadv]
      refine ih (by omega) ?_ ?_
      · intro p
        rw [(hfields p).2.1]
        exact hnext p
      · intro p j hj
        rw [(hfields p).2.2, Function.update_of_ne (by omega)]
        exact hsame p j (by omega)
    · rw [if_neg hsize]
      refine ih (by omega) ?_ fun p j hj => hsame p j (by omega)
      intro p
      have hgrow : offset bsize i ≤ offset bsize (i + 1) := offset_mono hpos (Nat.le_succ i) (by omega)
      exact (hptr p).trans hgrow

end Regions

/-! ## The calls and their broadcasts -/

namespace Result

/-- The requested sizes add up to an `int`. -/
def Fits : Result → Prop
  | .jitget bsize entries _ => entries ≤ transoptSize ∧ (∀ j < entries, 0 ≤ (bsize j).toInt) ∧
    offset bsize entries < 2 ^ 31
  | .jitopen _ fname => ∀ s ∈ fname, s.bytes.length < 2 ^ 31
  | _ => True

/-- The name is there and not empty; no region that was asked for is empty, and none is too long. -/
def Plain : Result → Prop
  | .jitget bsize entries g => Within bsize entries g ∧ NoneEmpty bsize entries g
  | .jitopen _ fname => ∃ s, fname = some s ∧ s.bytes ≠ []
  | _ => True

end Result

section Calls
variable {r : Result}

theorem sizes_getD (rsize : Nat → Int32) {entries j : Nat} (hj : j < entries) :
    ((List.range entries).map rsize).getD j 0 = rsize j := by
  simp [List.getD, hj]

theorem feed_jitopen {sock : Int32} {fname : Option CStr} (hfits : (Result.jitopen sock fname).Fits)
    (s : Proc) : ∃ t x, (rankCall .jitopen s).feed (Result.jitopen sock fname).msgs = .done t ∧
      t.seen = s.seen ++ [x] ∧ x.code = sock ∧
      ((Result.jitopen sock fname).Plain → x = (Result.jitopen sock fname).serial) := by
  cases fname with
  | none =>
    refine ⟨_, _, rfl, rfl, rfl, ?_⟩
    rintro ⟨name, hname, _⟩
    cases hname
  | some name =>
    have hsize : (Int32.ofNat name.bytes.length).toInt = name.bytes.length :=
      Int32.toInt_ofNat_of_lt (hfits name rfl)
    by_cases hempty : name.bytes = []
    · refine ⟨{ s with seen := s.seen ++ [.jitopen sock s.fname] }, _, ?_, rfl, rfl, ?_⟩
      · simp [Result.msgs, rankCall, hempty, Proc.show]
      · rintro ⟨name', hname, hne⟩
        cases hname
        exact absurd hempty hne
    · have hpos : Int32.ofNat name.bytes.length > 0 := by
        rw [int32_pos_iff, hsize]
        have := List.length_pos_iff.mpr hempty
        omega
      have hlen : name.bytes.length = (Int32.ofNat name.bytes.length).toInt.toNat := by
        rw [hsize, Int.toNat_natCast]
      refine ⟨{ s with
        fname := name.bytes, seen := s.seen ++ [.jitopen sock name.bytes] }, _, ?_, rfl, rfl, ?_⟩
      · have hmsgs : (Result.jitopen sock (some name)).msgs = .int sock ::
            .int (Int32.ofNat name.bytes.length) :: [.bytes name.bytes] := by
          simp [Result.msgs, hpos]
        rw [hmsgs]
        simp only [rankCall, if_pos hpos, feed_recvInt]
        rw [feed_recvBytes hlen, cstrOf_eq_self name.nul_free]
        rfl
      · intro _
        rfl

theorem feed_jitread (sz : Int32) (buf : Memory) (s : Proc) : ∃ t x,
    (rankCall .jitread s).feed (Result.jitread sz buf).msgs = .done t ∧ t.seen = s.seen ++ [x] ∧
      x = (Result.jitread sz buf).serial := by
  by_cases hpos : sz > 0
  · refine ⟨⟨s.fname, s.data.write 0 (buf.read 0 sz.toInt.toNat), s.seen ++ [.jitread sz
      ((s.data.write 0 (buf.read 0 sz.toInt.toNat)).read 0 sz.toInt.toNat)]⟩, _, ?_, rfl, ?_⟩
    · simp only [Result.msgs, rankCall, if_pos hpos, feed_recvInt]
      rw [feed_recvBytes (Memory.read_length _ _ _)]
      rfl
    · have hback := Memory.read_write s.data 0 (buf.read 0 sz.toInt.toNat)
      rw [Memory.read_length] at hback
      rw [hback]
      rfl
  · have hzero : sz.toInt.toNat = 0 := by
      rw [int32_pos_iff] at hpos
      omega
    refine ⟨{ s with seen := s.seen ++ [.jitread sz []] }, _, ?_, rfl, ?_⟩
    · simp only [Result.msgs, rankCall, if_neg hpos, feed_recvInt]
      rfl
    · simp only [Result.serial, hzero]
      rfl

theorem feed_jitget {bsize : Nat → Int32} {entries : Nat} {g : Got}
    (hfits : (Result.jitget bsize entries g).Fits) (s : Proc) : ∃ t x,
    (rankCall (.jitget bsize entries) s).feed (Result.jitget bsize entries g).msgs = .done t ∧
      t.seen = s.seen ++ [x] ∧ x.code = g.cc ∧
      ((Result.jitget bsize entries g).Plain → x = (Result.jitget bsize entries g).serial) := by
  obtain ⟨hent, hpos, hsum⟩ := hfits
  obtain ⟨W, hW⟩ := @jitgetFrom_total g.rsize bsize 0 entries 1 entries
    (start bsize (fun _ => s.data) g) hpos hsum (Nat.zero_add _) (fun _ => le_rfl) fun _ _ _ => rfl
  have hregions := regions_feed hW
  have hcongr := @regions_congr (fun i => ((List.range entries).map g.rsize).getD i 0) g.rsize 0
    entries (fun j _ hj => sizes_getD g.rsize (by omega)) ⟨s.data, bsize, 0⟩
  refine ⟨⟨s.fname, (W 1).data, s.seen ++ [.jitget g.cc ((List.range entries).map (W 1).bsize)
    ((List.range entries).map fun i =>
      (W 1).data.read (offset bsize i) ((W 1).bsize i).toInt.toNat)]⟩, _, ?_, rfl, rfl, ?_⟩
  · simp only [Result.msgs, rankCall, if_neg (Nat.not_lt.mpr hent), feed_recvInt]
    rw [feed_recvInts (by simp), hcongr]
    exact Reader.feed_bind hregions _
  · rintro ⟨hwithin, hne⟩
    obtain ⟨W', hW', hloop⟩ := jitgetFrom_agrees hwithin hne hsum (Nat.zero_add _)
      (start_loop bsize (fun _ => s.data) g)
    obtain rfl : W = W' := Option.some.inj (hW.symm.trans hW')
    have hagree := hloop.done 1
    simp only [Result.serial]
    congr 1
    · exact List.map_congr_left fun i hi => (hagree i (List.mem_range.mp hi)).1
    · refine List.map_congr_left fun i hi => ?_
      obtain ⟨hsize, hdata⟩ := hagree i (List.mem_range.mp hi)
      rw [hsize, hdata]

/-- The broadcasts of rank 0 are those that the other ranks wait for, and these see what the serial
build shows if nothing is special about the result. -/
theorem feed_rankCall (hfits : r.Fits) (s : Proc) : ∃ t x,
    (rankCall r.call s).feed r.msgs = .done t ∧ t.seen = s.seen ++ [x] ∧
      x.code = r.serial.code ∧ (r.Plain → x = r.serial) := by
  cases r with
  | jitopen sock fname => exact feed_jitopen hfits s
  | jitclose cc => exact ⟨_, _, rfl, rfl, rfl, fun _ => rfl⟩
  | jitread sz buf =>
    obtain ⟨t, x, hfeed, hseen, rfl⟩ := feed_jitread sz buf s
    exact ⟨t, _, hfeed, hseen, rfl, fun _ => rfl⟩
  | jitget bsize entries g => exact feed_jitget hfits s

end Calls

/-! ## Whole sessions -/

section Session
variable {n : Nat} {rs : List Result} {procs : Fin n → Proc}

/-- Rank 0 has made the calls with these results, the other ranks are to make them. -/
def session (rs : List Result) (procs : Fin n → Proc) : Net Msg Proc n :=
  Broadcast.start (rs.flatMap Result.msgs) fun p => Reader.calls rankCall (rs.map Result.call) (procs p)

theorem session_feed (hfits : ∀ r ∈ rs, r.Fits) (s : Proc) : ∃ t,
    (Reader.calls rankCall (rs.map Result.call) s).feed (rs.flatMap Result.msgs) = .done t ∧
      t.seen.map Seen.code = s.seen.map Seen.code ++ rs.map (fun r => r.serial.code) ∧
      ((∀ r ∈ rs, r.Plain) → t.seen = s.seen ++ rs.map Result.serial) := by
  obtain ⟨t, ht, hcodes⟩ := @Reader.feed_calls Msg Proc Result Call Int32 rankCall Result.call
    Result.msgs (fun s => s.seen.map Seen.code) (fun r => r.serial.code) rs (by
      intro r hr s
      obtain ⟨t, x, hfeed, hseen, hcode, _⟩ := feed_rankCall (hfits r hr) s
      refine ⟨t, hfeed, ?_⟩
      rw [hseen, List.map_append, List.map_singleton, hcode]) s
  refine ⟨t, ht, hcodes, fun hplain => ?_⟩
  obtain ⟨t', ht', hseen⟩ := @Reader.feed_calls Msg Proc Result Call Seen rankCall Result.call
    Result.msgs Proc.seen Result.serial rs (by
      intro r hr s
      obtain ⟨t, x, hfeed, hseen, _, hx⟩ := feed_rankCall (hfits r hr) s
      exact ⟨t, hfeed, by rw [hseen, hx (hplain r hr)]⟩) s
  obtain rfl : t = t' := by
    rw [ht] at ht'
    cases ht'
    rfl
  exact hseen

end Session

theorem nul_free_x : (0 : UInt8) ∉ [120] := by decide

/-- Two files, of which the first is shorter than its region. -/
def twoRegions : Got := ⟨0, fun i => if i = 0 then 3 else 8, fun _ => 7⟩

/-- A name is opened, two bytes are read, two regions are asked for, and the name is closed. -/
def fourCalls : List Result :=
  [.jitopen 3 (some ⟨[120], nul_free_x⟩), .jitread 2 fun _ => 5, .jitget (fun _ => 8) 2 twoRegions,
    .jitclose 0]

theorem within_twoRegions : Within (fun _ => 8) 2 twoRegions := by
  unfold Within
  decide

theorem fourCalls_fits : ∀ r ∈ fourCalls, r.Fits := by
  simp only [fourCalls, List.forall_mem_cons]
  refine ⟨?_, trivial, ⟨by decide, fun _ _ => ?_, by decide⟩, trivial, List.forall_mem_nil _⟩
  · intro s hs
    obtain rfl : _ = s := Option.some.inj hs
    simp
  · change (0 : Int) ≤ (8 : Int32).toInt
    decide

theorem fourCalls_plain : ∀ r ∈ fourCalls, r.Plain := by
  simp only [fourCalls, List.forall_mem_cons]
  refine ⟨⟨_, rfl, by simp⟩, trivial, ⟨within_twoRegions, ?_⟩, trivial, List.forall_mem_nil _⟩
  unfold NoneEmpty
  decide

/-- The second of two other ranks comes when all has been broadcast. -/
def lateRank : List (Label 2) :=
  [.send, .recv 0, .send, .recv 0] ++ List.replicate 8 .send ++ List.replicate 8 (.recv 0) ++
    List.replicate 10 (.recv 1)

end JitDt.Jitclient
