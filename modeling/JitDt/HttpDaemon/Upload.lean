import JitDt.Lib.Memory

/-!
# Uploads to http_daemon

`post_progress` gets the parts of a POST request chunk by chunk, in as many calls of
`uploadfile` as the body has pieces. The results of `fopen` and `fclose` come with every
chunk, `fwrite` writes all it is asked for. `none` is undefined behaviour.
-/

namespace JitDt.HttpDaemon

set_option autoImplicit false

abbrev Files := CStr → Option (List UInt8)

structure Stdio where
  fclose : Bool
  fopen : Bool

def Stdio.good : Stdio := ⟨true, true⟩

/-- The arguments of one call of `post_progress`. -/
structure Delivery where
  filename : Option CStr
  ctype : Option CStr
  data : List UInt8
  off : Nat
  stdio : Stdio

/-- An open stream is known by the file it writes to. -/
structure Context where
  fp : Option CStr
  fname : Option CStr

/-- What the write loop puts out: `fwrite` returns the number of items, which is one, and
the loop goes on with `size` lowered by it and the same `data`. -/
def writeLoop (data : List UInt8) : Nat → List UInt8
  | 0 => []
  | size + 1 => data.take (size + 1) ++ writeLoop data size

def append (fs : Files) (name : CStr) (bytes : List UInt8) : Files :=
  Function.update fs name ((fs name).map (· ++ bytes))

/-- `MHD_YES` or `MHD_NO`, and the state after the call. -/
def post_progress (d : Delivery) (cntxt : Context) (fs : Files) : Option (Bool × Context × Files) :=
  match d.ctype, d.filename with
  | none, _ => some (true, cntxt, fs)
  | some _, none => none
  | some _, some filename =>
    let differs := match cntxt.fname with
      | none => false
      | some fname => fname ≠ filename && d.off = 0
    if differs && !d.stdio.fclose then some (false, cntxt, fs)
    else
      match if differs then none else cntxt.fp with
      | some fp => some (true, cntxt, append fs fp (writeLoop d.data d.data.length))
      | none =>
        if d.stdio.fopen then
          some (true, ⟨some filename, some filename⟩,
            append (Function.update fs filename (some [])) filename
              (writeLoop d.data d.data.length))
        else some (false, cntxt, fs)

/-- The post processor hands on the chunks until it is told to stop. -/
def postProcess : List Delivery → Context → Files → Option (Context × Files)
  | [], cntxt, fs => some (cntxt, fs)
  | d :: ds, cntxt, fs => do
    let (yes, cntxt', fs') ← post_progress d cntxt fs
    if yes then postProcess ds cntxt' fs' else some (cntxt', fs')

/-- The first call makes the context; each further one brings the chunks of a piece of the
body. The last stream is closed when a call brings no data, which changes no content. -/
def uploadfile (ptr : Option Context) (chunks : List Delivery) (fs : Files) :
    Option (Option Context × Files) :=
  match ptr with
  | none => some (some ⟨none, none⟩, fs)
  | some cntxt => do
    let (cntxt', fs') ← postProcess chunks cntxt fs
    some (some cntxt', fs')

def uploadCalls : List (List Delivery) → Option Context → Files → Option Files
  | [], _, fs => some fs
  | chunks :: calls, ptr, fs => do
    let (ptr', fs') ← uploadfile ptr chunks fs
    uploadCalls calls ptr' fs'

def upload (calls : List (List Delivery)) (fs : Files) : Option Files :=
  uploadCalls ([] :: calls) none fs

/-! ## Requests -/

structure File where
  name : CStr
  chunks : List (List UInt8)

/-- A part is a file, or a form field without a content type. -/
inductive Part where
  | file (f : File) (ctype : CStr)
  | field (name : Option CStr) (chunks : List (List UInt8))

/-- The chunks of a part with their offsets. -/
def deliver (name ctype : Option CStr) : Nat → List (List UInt8) → List Delivery
  | _, [] => []
  | off, c :: cs => ⟨name, ctype, c, off, .good⟩ :: deliver name ctype (off + c.length) cs

def Part.deliveries : Part → List Delivery
  | .file f ctype => deliver (some f.name) (some ctype) 0 f.chunks
  | .field name chunks => deliver name none 0 chunks

def filesOf (parts : List Part) : List File :=
  parts.filterMap fun
    | .file f _ => some f
    | .field _ _ => none

/-- What is stored of a file. -/
def File.stored (f : File) : List UInt8 := f.chunks.flatMap fun c => writeLoop c c.length

def File.content (f : File) : List UInt8 := f.chunks.flatten

/-- `f` is the last file of its name, so that no other replaces it. -/
def Final (files : List File) (f : File) : Prop :=
  ∃ before after, files = before ++ f :: after ∧ ∀ g ∈ after, g.name ≠ f.name

structure WellFormed (parts : List Part) : Prop where
  delivered : ∀ f ∈ filesOf parts, f.chunks ≠ []
  switch : (filesOf parts).IsChain fun f g => f.name ≠ g.name

/-! ## The write loop -/

theorem length_le_writeLoop (data : List UInt8) : data.length ≤ (writeLoop data data.length).length := by
  cases hlen : data.length with
  | zero => exact Nat.zero_le _
  | succ n =>
    rw [writeLoop, List.length_append, List.length_take]
    omega

theorem length_writeLoop_iff (data : List UInt8) :
    (writeLoop data data.length).length = data.length ↔ data.length ≤ 1 := by
  cases hlen : data.length with
  | zero => simp [writeLoop]
  | succ n =>
    rw [writeLoop, List.length_append, List.length_take, hlen, Nat.min_self]
    cases n with
    | zero => simp [writeLoop]
    | succ n =>
      rw [writeLoop, List.length_append, List.length_take]
      omega

theorem writeLoop_of_le {data : List UInt8} (h : data.length ≤ 1) :
    writeLoop data data.length = data := by
  rcases data with _ | ⟨b, _ | ⟨c, data⟩⟩
  · rfl
  · rfl
  · simp at h

theorem length_content_le (chunks : List (List UInt8)) :
    chunks.flatten.length ≤ (chunks.flatMap fun c => writeLoop c c.length).length := by
  induction chunks with
  | nil => exact le_refl _
  | cons c cs ih =>
    rw [List.flatten_cons, List.flatMap_cons, List.length_append, List.length_append]
    have := length_le_writeLoop c
    omega

/-- What is stored is what was sent exactly when no chunk is longer than a byte. -/
theorem stored_eq_content_iff (f : File) : f.stored = f.content ↔ ∀ c ∈ f.chunks, c.length ≤ 1 := by
  unfold File.stored File.content
  induction f.chunks with
  | nil => simp
  | cons c cs ih =>
    constructor
    · intro h
      have hlen := congrArg List.length h
      have hc := length_le_writeLoop c
      have hcs := length_content_le cs
      rw [List.flatten_cons, List.flatMap_cons, List.length_append, List.length_append] at hlen
      have hone : c.length ≤ 1 := (length_writeLoop_iff c).mp (by omega)
      rw [List.flatten_cons, List.flatMap_cons, writeLoop_of_le hone] at h
      exact List.forall_mem_cons.mpr ⟨hone, ih.mp (List.append_cancel_left h)⟩
    · intro h
      obtain ⟨hone, hrest⟩ := List.forall_mem_cons.mp h
      rw [List.flatten_cons, List.flatMap_cons, writeLoop_of_le hone, ih.mpr hrest]

/-! ## A request -/

/-- A run of `post_progress` in which every call answers `MHD_YES`. -/
inductive Accepted : List Delivery → Context × Files → Context × Files → Prop where
  | nil (s : Context × Files) : Accepted [] s s
  | cons {d : Delivery} {ds : List Delivery} {s t u : Context × Files}
      (h : post_progress d s.1 s.2 = some (true, t)) (hs : Accepted ds t u) : Accepted (d :: ds) s u

namespace Accepted

variable {ds es : List Delivery} {s t u : Context × Files}

theorem trans (h : Accepted ds s t) (h' : Accepted es t u) : Accepted (ds ++ es) s u := by
  induction h with
  | nil => exact h'
  | cons h _ ih => exact .cons h (ih h')

theorem split (h : Accepted (ds ++ es) s u) : ∃ t, Accepted ds s t ∧ Accepted es t u := by
  induction ds generalizing s with
  | nil => exact ⟨s, .nil s, h⟩
  | cons d ds ih =>
    cases h with
    | cons h hs =>
      obtain ⟨t, hds, hes⟩ := ih hs
      exact ⟨t, .cons h hds, hes⟩

theorem postProcess (h : Accepted ds s t) : HttpDaemon.postProcess ds s.1 s.2 = some t := by
  induction h with
  | nil s => rfl
  | cons h _ ih =>
    simp only [HttpDaemon.postProcess, h, Option.bind_eq_bind, Option.bind_some, if_true]
    exact ih

/-- However the body is cut, the same chunks come in the same order. -/
theorem uploadCalls {calls : List (List Delivery)} (h : Accepted calls.flatten s t) :
    HttpDaemon.uploadCalls calls (some s.1) s.2 = some t.2 := by
  induction calls generalizing s with
  | nil =>
    cases h
    rfl
  | cons chunks calls ih =>
    obtain ⟨u, hchunks, hrest⟩ := h.split
    simp only [HttpDaemon.uploadCalls, uploadfile, hchunks.postProcess, Option.bind_eq_bind,
      Option.bind_some]
    exact ih hrest

end Accepted

theorem append_of_some {fs : Files} {name : CStr} {old bytes : List UInt8} (h : fs name = some old) :
    append fs name bytes = Function.update fs name (some (old ++ bytes)) := by
  rw [append, h]
  rfl

theorem accepted_rest (name ctype : CStr) (chunks : List (List UInt8)) (off : Nat) {fs : Files}
    {old : List UInt8} (h : fs name = some old) :
    Accepted (deliver (some name) (some ctype) off chunks) (⟨some name, some name⟩, fs)
      (⟨some name, some name⟩,
        Function.update fs name (some (old ++ chunks.flatMap fun c => writeLoop c c.length))) := by
  induction chunks generalizing off fs old with
  | nil =>
    rw [List.flatMap_nil, List.append_nil, ← h, Function.update_eq_self]
    exact .nil _
  | cons c cs ih =>
    refine .cons (t := (⟨some name, some name⟩,
      Function.update fs name (some (old ++ writeLoop c c.length)))) ?_ ?_
    · simp [post_progress, append_of_some h]
    · have hrest := @ih (off + c.length) (Function.update fs name (some (old ++ writeLoop c c.length))) _
        (Function.update_self _ _ _)
      rw [Function.update_idem, List.append_assoc] at hrest
      rw [List.flatMap_cons]
      exact hrest

/-- The stream of the context writes to the file the context names. -/
def Tracks (c : Context) : Prop := c.fp = c.fname

/-- A file whose name is not that of the file before it replaces what its name held. -/
theorem accepted_file {f : File} (hf : f.chunks ≠ []) (ctype : CStr) {c : Context} (hc : Tracks c)
    (hname : c.fname ≠ some f.name) (fs : Files) :
    Accepted (deliver (some f.name) (some ctype) 0 f.chunks) (c, fs)
      (⟨some f.name, some f.name⟩, Function.update fs f.name (some f.stored)) := by
  unfold File.stored
  cases hchunks : f.chunks with
  | nil => exact absurd hchunks hf
  | cons d ds =>
    refine .cons (t := (⟨some f.name, some f.name⟩,
      Function.update fs f.name (some (writeLoop d d.length)))) ?_ ?_
    · obtain ⟨fp, fname⟩ := c
      obtain rfl : fp = fname := hc
      cases fp with
      | none => simp [post_progress, Stdio.good, append]
      | some old =>
        have hne : old ≠ f.name := fun h => hname (by rw [h])
        simp [post_progress, Stdio.good, append, hne]
    · have hrest := @accepted_rest f.name ctype ds (0 + d.length)
        (Function.update fs f.name (some (writeLoop d d.length))) _ (Function.update_self _ _ _)
      rw [Function.update_idem] at hrest
      rw [List.flatMap_cons]
      exact hrest

theorem accepted_field (name : Option CStr) (chunks : List (List UInt8)) (off : Nat)
    (s : Context × Files) : Accepted (deliver name none off chunks) s s := by
  induction chunks generalizing off with
  | nil => exact .nil s
  | cons c cs ih => exact .cons rfl (ih _)

/-- The files written one after the other. -/
def storeAll (files : List File) (fs : Files) : Files :=
  files.foldl (fun fs f => Function.update fs f.name (some f.stored)) fs

theorem accepted_parts {parts : List Part} (hw : WellFormed parts) {c : Context} (hc : Tracks c)
    (hnext : ∀ f, (filesOf parts).head? = some f → c.fname ≠ some f.name) (fs : Files) :
    ∃ c', Accepted (parts.flatMap Part.deliveries) (c, fs) (c', storeAll (filesOf parts) fs) := by
  induction parts generalizing c fs with
  | nil => exact ⟨c, .nil _⟩
  | cons p parts ih =>
    cases p with
    | file f ctype =>
      obtain ⟨hdel, hdels⟩ := List.forall_mem_cons.mp hw.delivered
      obtain ⟨hhead, hrest⟩ := List.isChain_cons.mp hw.switch
      have hnext' : ∀ g, (filesOf parts).head? = some g → some f.name ≠ some g.name := by
        intro g hg h
        exact hhead g hg (Option.some.inj h)
      obtain ⟨c', hparts⟩ := ih ⟨hdels, hrest⟩ (c := ⟨some f.name, some f.name⟩) rfl hnext'
        (Function.update fs f.name (some f.stored))
      exact ⟨c', (accepted_file hdel ctype hc (hnext f rfl) fs).trans hparts⟩
    | field name chunks =>
      obtain ⟨c', hparts⟩ := ih ⟨hw.delivered, hw.switch⟩ hc hnext fs
      exact ⟨c', (accepted_field name chunks 0 (c, fs)).trans hparts⟩

theorem storeAll_of_not_mem {files : List File} {name : CStr} (h : ∀ g ∈ files, g.name ≠ name)
    (fs : Files) : storeAll files fs name = fs name := by
  induction files generalizing fs with
  | nil => rfl
  | cons g files ih =>
    obtain ⟨hg, hrest⟩ := List.forall_mem_cons.mp h
    have := ih hrest (Function.update fs g.name (some g.stored))
    rw [Function.update_of_ne hg.symm] at this
    exact this

theorem storeAll_final {files : List File} {f : File} (h : Final files f) (fs : Files) :
    storeAll files fs f.name = some f.stored := by
  obtain ⟨before, after, rfl, hafter⟩ := h
  unfold storeAll
  rw [List.foldl_append, List.foldl_cons]
  exact (storeAll_of_not_mem hafter _).trans (Function.update_self _ _ _)

/-- Every file of the request is on disk as it was sent, unless a later one took its name. -/
def Unchanged (parts : List Part) (fs : Files) : Prop :=
  ∀ f, Final (filesOf parts) f → fs f.name = some f.content

/-- However a request is cut into calls, its files are stored unchanged exactly when no
chunk of them is longer than one byte. -/
theorem upload_unchanged_iff {parts : List Part} (hw : WellFormed parts)
    {calls : List (List Delivery)} (hcalls : calls.flatten = parts.flatMap Part.deliveries)
    (fs : Files) :
    ∃ fs', upload calls fs = some fs' ∧ (Unchanged parts fs' ↔
      ∀ f, Final (filesOf parts) f → ∀ c ∈ f.chunks, c.length ≤ 1) := by
  obtain ⟨c', hparts⟩ := accepted_parts hw (c := ⟨none, none⟩) rfl nofun fs
  rw [← hcalls] at hparts
  refine ⟨storeAll (filesOf parts) fs, hparts.uploadCalls, ?_⟩
  unfold Unchanged
  refine forall_congr' fun f => forall_congr' fun hf => ?_
  rw [storeAll_final hf, Option.some_inj]
  exact stored_eq_content_iff f

/-- Two files, the second a byte at a time. -/
theorem upload_unchanged_iff_two :
    ∃ fs', upload [[⟨some ⟨[97], by decide⟩, some ⟨[116], by decide⟩, [1], 0, .good⟩,
        ⟨some ⟨[98], by decide⟩, some ⟨[116], by decide⟩, [2], 0, .good⟩],
        [⟨some ⟨[98], by decide⟩, some ⟨[116], by decide⟩, [3], 1, .good⟩]] (fun _ => none) = some fs' ∧
      fs' ⟨[98], by decide⟩ = some [2, 3] := by
  have hw : WellFormed [.file ⟨⟨[97], by decide⟩, [[1]]⟩ ⟨[116], by decide⟩,
      .file ⟨⟨[98], by decide⟩, [[2], [3]]⟩ ⟨[116], by decide⟩] :=
    ⟨by simp [filesOf], by simp [filesOf]⟩
  obtain ⟨fs', hup, hiff⟩ := upload_unchanged_iff hw rfl (fun _ => none)
  refine ⟨fs', hup, hiff.mpr ?_ ⟨⟨[98], by decide⟩, [[2], [3]]⟩
    ⟨[_], [], rfl, List.forall_mem_nil _⟩⟩
  rintro f ⟨before, after, hsplit, _⟩
  have hf : f ∈ filesOf [.file ⟨⟨[97], by decide⟩, [[1]]⟩ ⟨[116], by decide⟩,
      .file ⟨⟨[98], by decide⟩, [[2], [3]]⟩ ⟨[116], by decide⟩] := by
    rw [hsplit]
    simp
  rcases List.mem_cons.mp hf with rfl | hf
  · simp
  · rw [List.mem_singleton.mp hf]
    simp

/-- A chunk of two bytes is stored with its first byte once more behind it. -/
theorem two_byte_chunk_stored_twice :
    ∃ fs', upload [[⟨some ⟨[97], by decide⟩, some ⟨[116], by decide⟩, [1, 2], 0, .good⟩]]
        (fun _ => none) = some fs' ∧ fs' ⟨[97], by decide⟩ = some [1, 2, 1] ∧
      ¬ Unchanged [.file ⟨⟨[97], by decide⟩, [[1, 2]]⟩ ⟨[116], by decide⟩] fs' := by
  refine ⟨_, rfl, rfl, ?_⟩
  intro h
  have hfile := h ⟨⟨[97], by decide⟩, [[1, 2]]⟩ ⟨[], [], rfl, List.forall_mem_nil _⟩
  exact absurd hfile (by decide)

end JitDt.HttpDaemon
