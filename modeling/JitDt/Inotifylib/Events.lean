import JitDt.Inotifylib.Mynotify
import JitDt.Lib.LittleEndian

/-!
# The events of one read

The loop over the records in `evtbuf`, and which files of a batch it hands to `func`. The loop is
left in the middle of a batch by a directory event only: for `resetting`, or because a watch
cannot be added or `dirs_check` does not return.
-/

namespace JitDt.Inotifylib

set_option autoImplicit false

open PathName (slash dot)

/-! ## The records -/

/-- A record as the kernel writes it: a name has at least one zero byte behind it, and the three
events that are asked for have a name. -/
structure Record where
  wd : Int32
  mask : UInt32
  cookie : UInt32
  name : Path
  pad : Nat
  no_nul : 0 ∉ name
  fits : name.length + pad < 2 ^ 32
  named : pad = 0 → name = [] ∧ mask &&& (inCreate ||| (inCloseWrite ||| inMovedTo)) = 0

def headerSize : Nat := 16

namespace Record

def event (r : Record) : Event := ⟨r.wd.toInt, r.mask, r.name⟩

def encode (r : Record) : List UInt8 :=
  int32Bytes r.wd ++ (leBytes 4 r.mask.toNat ++ (leBytes 4 r.cookie.toNat ++
    (leBytes 4 (r.name.length + r.pad) ++ (r.name ++ List.replicate r.pad 0))))

end Record

/-- The record at an offset. The name ends at the first zero byte, wherever that is. -/
def eventAt (buf : List UInt8) (len : Nat) : Event where
  wd := (int32Of (slice len 4 buf)).toInt
  mask := UInt32.ofNat (ofLe (slice (len + 4) 4 buf))
  name := (buf.drop (len + headerSize)).takeWhile (· ≠ 0)

def lenAt (buf : List UInt8) (len : Nat) : Nat := ofLe (slice (len + 12) 4 buf)

/-! ## The loop -/

section Loop
variable (sdirflag : Bool) (ws : Nat → World)

/-- The loop over the `sz` bytes that were read, with the answers `ws i` for event number `i`: how
it ends and the calls of `func`. -/
def events (buf : List UInt8) (sz : Nat) : Nat → Nat → Nat → Notify → Outcome × List Path
  | 0, _, _, s => (.never s, [])
  | k + 1, i, len, s =>
    if len < sz then
      let o := handle sdirflag (ws i) (eventAt buf len) s
      if o.goesOn then
        let r := events buf sz k (i + 1) (len + headerSize + lenAt buf len) o.state
        (r.1, o.call.toList ++ r.2)
      else (o, [])
    else (.next s none, [])

/-- The loop from the first record on, which never runs out of its bound. -/
def readEvents (buf : List UInt8) (sz : Nat) (s : Notify) : Outcome × List Path :=
  events sdirflag ws buf sz (sz + 1) 0 0 s

/-- The same loop over events. -/
def batch : List Event → Nat → Notify → Outcome × List Path
  | [], _, s => (.next s none, [])
  | e :: es, i, s =>
    let o := handle sdirflag (ws i) e s
    if o.goesOn then
      let r := batch es (i + 1) o.state
      (r.1, o.call.toList ++ r.2)
    else (o, [])

end Loop

section Decoding
variable (r : Record) (pre post : List UInt8) {sdirflag : Bool} {w : World} {e : Event}
  {s : Notify} {ws : Nat → World}

theorem Record.encode_length (r : Record) :
    r.encode.length = headerSize + (r.name.length + r.pad) := by
  simp [Record.encode, headerSize]
  omega

theorem wd_eventAt : (eventAt (pre ++ (r.encode ++ post)) pre.length).wd = r.wd.toInt := by
  have hwd : slice pre.length 4 (pre ++ (r.encode ++ post)) = int32Bytes r.wd := by
    rw [Record.encode, List.append_assoc]
    exact slice_append rfl (int32Bytes_length _)
  change (int32Of (slice pre.length 4 _)).toInt = _
  rw [hwd, int32Of_int32Bytes]

theorem mask_eventAt : (eventAt (pre ++ (r.encode ++ post)) pre.length).mask = r.mask := by
  have hmask : slice (pre.length + 4) 4 (pre ++ (r.encode ++ post)) = leBytes 4 r.mask.toNat := by
    rw [Record.encode, List.append_assoc, List.append_assoc, ← List.append_assoc pre]
    exact slice_append (by simp) (leBytes_length _ _)
  change UInt32.ofNat (ofLe (slice (pre.length + 4) 4 _)) = _
  have hlt : r.mask.toNat < 256 ^ 4 := r.mask.toNat_lt
  rw [hmask, ofLe_leBytes, Nat.mod_eq_of_lt hlt, UInt32.ofNat_toNat]

theorem lenAt_encode : lenAt (pre ++ (r.encode ++ post)) pre.length = r.name.length + r.pad := by
  have hlen : slice (pre.length + 12) 4 (pre ++ (r.encode ++ post)) =
      leBytes 4 (r.name.length + r.pad) := by
    have hsplit : pre ++ (r.encode ++ post) = (pre ++ (int32Bytes r.wd ++ (leBytes 4 r.mask.toNat ++
        leBytes 4 r.cookie.toNat))) ++ (leBytes 4 (r.name.length + r.pad) ++
          (r.name ++ List.replicate r.pad 0 ++ post)) := by
      simp only [Record.encode, List.append_assoc]
    rw [hsplit]
    exact slice_append (by simp) (leBytes_length _ _)
  rw [lenAt, hlen, ofLe_leBytes]
  exact Nat.mod_eq_of_lt r.fits

theorem name_eventAt (h : r.pad ≠ 0) :
    (eventAt (pre ++ (r.encode ++ post)) pre.length).name = r.name := by
  obtain ⟨k, hk⟩ := Nat.exists_eq_succ_of_ne_zero h
  have hsplit : pre ++ (r.encode ++ post) = (pre ++ (int32Bytes r.wd ++ (leBytes 4 r.mask.toNat ++
      (leBytes 4 r.cookie.toNat ++ leBytes 4 (r.name.length + r.pad))))) ++
        (r.name ++ 0 :: (List.replicate k 0 ++ post)) := by
    simp only [Record.encode, List.append_assoc, hk, List.replicate_succ, List.cons_append]
  have hlen : (pre ++ (int32Bytes r.wd ++ (leBytes 4 r.mask.toNat ++
      (leBytes 4 r.cookie.toNat ++ leBytes 4 (r.name.length + r.pad))))).length =
        pre.length + headerSize := by
    simp [headerSize]
  change (List.drop (pre.length + headerSize) _).takeWhile _ = _
  rw [hsplit, List.drop_left' hlen, List.takeWhile_append_of_pos]
  · simp
  · intro c hc
    have hne : c ≠ 0 := by
      rintro rfl
      exact r.no_nul hc
    simpa using hne

/-- An event without any of the three bits is passed over, whatever stands for its name. -/
theorem handle_without (h : e.mask &&& (inCreate ||| (inCloseWrite ||| inMovedTo)) = 0) :
    handle sdirflag w e s = .next s none := by
  have hcreate : e.mask &&& inCreate = 0 := by
    have hsub : (inCreate ||| (inCloseWrite ||| inMovedTo)) &&& inCreate = inCreate := by decide
    rw [← hsub, ← UInt32.and_assoc, h, UInt32.zero_and]
  have hclose : e.mask &&& (inCloseWrite ||| inMovedTo) = 0 := by
    have hsub : (inCreate ||| (inCloseWrite ||| inMovedTo)) &&& (inCloseWrite ||| inMovedTo) =
        inCloseWrite ||| inMovedTo := by decide
    rw [← hsub, ← UInt32.and_assoc, h, UInt32.zero_and]
  unfold handle
  split
  · rfl
  · split
    · rfl
    · rfl
    · unfold fileEvent
      rw [if_pos hclose]

theorem handle_eventAt : handle sdirflag w (eventAt (pre ++ (r.encode ++ post)) pre.length) s =
    handle sdirflag w r.event s := by
  by_cases hpad : r.pad = 0
  · obtain ⟨hname, hmask⟩ := r.named hpad
    rw [handle_without (e := r.event) hmask, handle_without]
    rw [mask_eventAt]
    exact hmask
  · have heq : eventAt (pre ++ (r.encode ++ post)) pre.length = r.event := by
      rw [Record.event, ← wd_eventAt r pre post, ← mask_eventAt r pre post,
        ← name_eventAt r pre post hpad]
    rw [heq]

/-- The records of a read, whatever stands behind them in the buffer, are taken one by one. -/
theorem events_encode (sdirflag : Bool) (ws : Nat → World) (rs : List Record)
    (pre stale : List UInt8) (k i : Nat)
    (hk : (rs.flatMap Record.encode).length < k) (s : Notify) :
    events sdirflag ws (pre ++ (rs.flatMap Record.encode ++ stale))
      (pre.length + (rs.flatMap Record.encode).length) k i pre.length s =
        batch sdirflag ws (rs.map Record.event) i s := by
  induction rs generalizing pre k i s with
  | nil =>
    cases k with
    | zero => cases hk
    | succ k => exact if_neg (Nat.lt_irrefl _)
  | cons r rs ih =>
    cases k with
    | zero => cases hk
    | succ k =>
      rw [List.flatMap_cons, List.length_append] at hk ⊢
      rw [List.append_assoc]
      have hsize := r.encode_length
      have hpos : 0 < headerSize := Nat.succ_pos _
      unfold events
      rw [if_pos (by omega), lenAt_encode, handle_eventAt, List.map_cons, batch]
      by_cases hgo : (handle sdirflag (ws i) r.event s).goesOn
      · have hnext : pre.length + headerSize + (r.name.length + r.pad) =
            (pre ++ r.encode).length := by
          rw [List.length_append, hsize, Nat.add_assoc]
        have hend : pre.length + (r.encode.length + (rs.flatMap Record.encode).length) =
            (pre ++ r.encode).length + (rs.flatMap Record.encode).length := by
          rw [List.length_append, Nat.add_assoc]
        rw [if_pos hgo, if_pos hgo, hnext, hend, ← List.append_assoc]
        simp only [ih (pre ++ r.encode) k (i + 1) (by omega)]
      · rw [if_neg hgo, if_neg hgo]

theorem readEvents_encode (rs : List Record) (stale : List UInt8) (s : Notify) :
    readEvents sdirflag ws (rs.flatMap Record.encode ++ stale) (rs.flatMap Record.encode).length s =
      batch sdirflag ws (rs.map Record.event) 0 s := by
  have h := events_encode sdirflag ws rs [] stale _ 0 (Nat.lt_succ_self _) s
  rw [List.nil_append, List.length_nil, Nat.zero_add] at h
  exact h

end Decoding

/-! ## What is due -/

/-- `func` is to be called for the event. -/
def Due (w : World) (e : Event) (s : Notify) : Prop :=
  e.mask &&& inIgnored = 0 ∧ w.stat (s.avpath e) = some false ∧
    e.mask &&& (inCloseWrite ||| inMovedTo) ≠ 0 ∧ e.name.head? ≠ some dot ∧
    s.avpath e ≠ s.prevpath

instance (w : World) (e : Event) (s : Notify) : Decidable (Due w e s) :=
  inferInstanceAs (Decidable (_ ∧ _ ∧ _ ∧ _ ∧ _))

section Due
variable (sdirflag : Bool) (ws : Nat → World)

/-- The calls of `func` that the events ask for, whether or not the loop goes on. -/
def due : List Event → Nat → Notify → List Path
  | [], _, _ => []
  | e :: es, i, s => (if Due (ws i) e s then [s.avpath e] else []) ++
      due es (i + 1) (handle sdirflag (ws i) e s).state

/-- Nothing is due behind an event that ends the batch. -/
def Undisturbed : List Event → Nat → Notify → Prop
  | [], _, _ => True
  | e :: es, i, s =>
    (Leaves sdirflag (ws i) e s → due sdirflag ws es (i + 1) (handle sdirflag (ws i) e s).state = []) ∧
      Undisturbed es (i + 1) (handle sdirflag (ws i) e s).state

variable {sdirflag ws} {w : World} {e : Event} {s : Notify} {ps : List Path} {avpath : Path}

theorem created_not_due (h : Created w e s) : ¬ Due w e s := by
  rintro ⟨-, hstat, -⟩
  rw [h.2.1] at hstat
  cases hstat

/-- A file that is due is handed to `func`, and its path kept if `func` returns 1. -/
theorem handle_due (h : Due w e s) : handle sdirflag w e s =
    .next { s with prevpath := if w.func (s.avpath e) = 1 then s.avpath e else [] }
      (some (s.avpath e)) := by
  obtain ⟨hign, hstat, hmask, hdot, hprev⟩ := h
  unfold handle
  rw [if_neg (not_not.mpr hign), hstat]
  change fileEvent w e.mask e.name (s.avpath e) s = _
  unfold fileEvent
  rw [if_neg hmask, if_neg hdot, if_neg hprev.symm]

/-- An event that neither creates a directory nor is due is passed over. -/
theorem handle_passed (h : ¬ Due w e s) (hc : ¬ Created w e s) :
    handle sdirflag w e s = .next s none := by
  unfold handle
  by_cases hign : e.mask &&& inIgnored ≠ 0
  · rw [if_pos hign]
  rw [if_neg hign]
  cases hstat : w.stat (s.avpath e) with
  | none => rfl
  | some isdir =>
    cases isdir with
    | true =>
      have hcreate : e.mask &&& inCreate = 0 := by
        by_contra hne
        exact hc ⟨not_not.mp hign, hstat, hne⟩
      exact if_pos hcreate
    | false =>
      change fileEvent w e.mask e.name (s.avpath e) s = _
      unfold fileEvent
      split
      · rfl
      · rename_i hmask
        split
        · rfl
        · rename_i hdot
          split
          · rfl
          · rename_i hprev
            exact absurd ⟨not_not.mp hign, hstat, hmask, hdot, fun heq => hprev heq.symm⟩ h

/-- `func` is called for an event exactly if it is due. -/
theorem call_eq (sdirflag : Bool) (w : World) (e : Event) (s : Notify) :
    (handle sdirflag w e s).call = if Due w e s then some (s.avpath e) else none := by
  by_cases hdue : Due w e s
  · rw [handle_due hdue, if_pos hdue]
    rfl
  rw [if_neg hdue]
  by_cases hc : Created w e s
  · rw [handle_created hc, dirEvent]
    cases dirs_check w pathMax 0 (.buf (s.avpath e)) sdirflag s.dirent with
    | none => rfl
    | some r => exact enterAll_call
  · rw [handle_passed hdue hc]
    rfl

theorem undisturbed_of_due {es : List Event} {i : Nat} (h : due sdirflag ws es i s = []) :
    Undisturbed sdirflag ws es i s := by
  induction es generalizing i s with
  | nil => trivial
  | cons e es ih =>
    have hrest := (List.append_eq_nil_iff.mp h).2
    exact ⟨fun _ => hrest, ih hrest⟩

theorem batch_eq_due_iff (es : List Event) (i : Nat) (s : Notify) :
    (batch sdirflag ws es i s).2 = due sdirflag ws es i s ↔ Undisturbed sdirflag ws es i s := by
  induction es generalizing i s with
  | nil => exact iff_of_true rfl trivial
  | cons e es ih =>
    have hcall := call_eq sdirflag (ws i) e s
    by_cases hl : Leaves sdirflag (ws i) e s
    · have hgo : ¬ (handle sdirflag (ws i) e s).goesOn = true := fun h => goesOn_iff.mp h hl
      rw [batch, due, if_neg (created_not_due hl.1), if_neg hgo, List.nil_append]
      constructor
      · intro h
        exact ⟨fun _ => h.symm, undisturbed_of_due h.symm⟩
      · rintro ⟨h, -⟩
        exact (h hl).symm
    · have hgo : (handle sdirflag (ws i) e s).goesOn = true := goesOn_iff.mpr hl
      have hhead : (handle sdirflag (ws i) e s).call.toList =
          if Due (ws i) e s then [s.avpath e] else [] := by
        rw [hcall]
        split
        · rfl
        · rfl
      rw [batch, due, if_pos hgo]
      simp only [hhead, List.append_cancel_left_eq]
      rw [ih]
      exact ⟨fun h => ⟨fun h' => absurd h' hl, h⟩, fun h => h.2⟩

end Due

/-- `func` is called exactly once and in order for the files that are due if and only if none is
due behind a directory event that ends the batch. -/
theorem no_event_lost_iff (sdirflag : Bool) (ws : Nat → World) (rs : List Record)
    (stale : List UInt8) (s : Notify) :
    (readEvents sdirflag ws (rs.flatMap Record.encode ++ stale)
        (rs.flatMap Record.encode).length s).2 = due sdirflag ws (rs.map Record.event) 0 s ↔
      Undisturbed sdirflag ws (rs.map Record.event) 0 s := by
  rw [readEvents_encode]
  exact batch_eq_due_iff _ 0 s

/-- The current directory `/d` has the last row. A directory `n` is created in it, and a file `f`
is closed. -/
theorem file_event_lost :
    let w : World :=
      ⟨fun p => some (p = [slash, 100, slash, 110]), fun _ => none, fun _ => some 0, fun _ => 1⟩
    let r₁ : Record := ⟨2881, inCreate, 0, [110], 15, by decide, by decide, fun h => absurd h (by decide)⟩
    let r₂ : Record := ⟨2881, inCloseWrite, 0, [102], 15, by decide, by decide, fun h => absurd h (by decide)⟩
    let s : Notify := { Notify.zero with
      wdirs := fun i => if i = 0 then [slash, 100, slash] else [slash]
      curdir := maxDirs
      ino := ⟨maxDirs + 1, fun d => if d.path = [[100]] then some maxDirs else none,
        fun n => if n = maxDirs then some ⟨[[100]], 0⟩ else none⟩ }
    let buf := [r₁, r₂].flatMap Record.encode
    (readEvents false (fun _ => w) buf buf.length s).2 = [] ∧
      due false (fun _ => w) ([r₁, r₂].map Record.event) 0 s = [[slash, 100, slash, 102]] := by
  refine ⟨?_, ?_⟩
  · rfl
  · rfl

end JitDt.Inotifylib
