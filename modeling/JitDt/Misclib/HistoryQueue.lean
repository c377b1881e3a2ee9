import JitDt.Misclib.HistoryOrder

/-!
# The history ring as a bounded queue of dates

Sequences of `histput`, `histget` and `histremove` calls on a ring that fits its
array: the dates of the `numhist` slots from `conshistp` on are the items of a
`BoundedQueue`, call by call. Everything about order and length is then a fact
about that queue.
-/

namespace JitDt.Misclib

set_option autoImplicit false

open RingIndex Machine

inductive HistOp where
  | put (path : Path) (dt : Int64) (tent : Int)
  | get
  | remove

def histStep (r : Ring) : HistOp → Option Ring
  | .put path dt tent => histput path dt tent r
  | .get =>
    match histget r with
    | some (r', some _) => some r'
    | _ => none
  | .remove => histremove r

def Allowed (r : Ring) : HistOp → Prop
  | .put _ dt tent => 1 ≤ dt ∧ 0 ≤ tent ∧ tent < fnameMax
  | .get => 0 < r.numhist
  | .remove => 0 < r.numhist

instance (r : Ring) (op : HistOp) : Decidable (Allowed r op) :=
  match op with
  | .put _ _ _ => inferInstanceAs (Decidable (_ ∧ _))
  | .get => inferInstanceAs (Decidable (_ < _))
  | .remove => inferInstanceAs (Decidable (_ < _))

/-- What a call means to the queue of dates. -/
def HistOp.toQueueOp : HistOp → QueueOp Nat
  | .put _ dt _ => .push (ull dt)
  | .get => .look
  | .remove => .pop

/-- The dates of the slots `conshistp .. prodhistp`. -/
def Ring.dates (r : Ring) : List Nat :=
  (List.range r.numhist.toNat).map fun k => r.date ((r.conshistp + k) % r.nhist)

theorem histget_of_pos {r r' : Ring} {hp : Nat} (h : histget r = some (r', some hp)) :
    0 < r.numhist ∧ r' = r ∧ hp = r.conshistp := by
  unfold histget at h
  split at h
  · rename_i hpos
    obtain ⟨_, _, h⟩ := Option.bind_eq_some_iff.mp h
    simp only [Option.some.injEq, Prod.mk.injEq] at h
    exact ⟨hpos, h.1.symm, h.2.symm⟩
  · simp at h

theorem histget_total {r : Ring} (h : Fits r) (hpos : 0 < r.numhist) :
    histget r = some (r, some r.conshistp) := by
  have hc : r.conshistp < maxHistory := h.cons_lt.trans_le h.small
  simp [histget, hpos, Ring.entry, hc]

theorem histStep_get {r r' : Ring} (h : histStep r .get = some r') : r' = r := by
  simp only [histStep] at h
  split at h
  · rename_i r₁ hp hget
    rw [← Option.some.inj h, (histget_of_pos hget).2.1]
  · cases h

theorem ull_eq_toInt {dt : Int64} (h : 1 ≤ dt) : (ull dt : Int) = dt.toInt := by
  have h₀ : (1 : Int64).toInt ≤ dt.toInt := Int64.le_iff_toInt_le.mp h
  have h₁ : (1 : Int64).toInt = 1 := by decide
  have hcond := BitVec.toInt_eq_toNat_cond dt.toBitVec
  show ((dt.toBitVec.toNat : Nat) : Int) = dt.toBitVec.toInt
  change _ ≤ dt.toBitVec.toInt at h₀
  split at hcond <;> omega

theorem ull_pos {dt : Int64} (h : 1 ≤ dt) : 0 < ull dt := by
  have h₀ : (1 : Int64).toInt ≤ dt.toInt := Int64.le_iff_toInt_le.mp h
  have h₁ : (1 : Int64).toInt = 1 := by decide
  have := ull_eq_toInt h
  omega

/-! ## The slots of the window -/

namespace At

variable {r : Ring} {P C : Nat}

theorem dates_eq (h : At r P C) :
    r.dates = (List.range r.numhist.toNat).map fun k => r.date ((C + k) % r.nhist) := by
  unfold Ring.dates
  refine List.map_congr_left fun k _ => ?_
  rw [h.cons, window_mod]

theorem nextEntry_eq_window (h : At r P C) (hnum : 0 ≤ r.numhist) :
    nextEntry r = (C + r.numhist.toNat) % r.nhist := by
  have hn := h.num
  rw [h.nextEntry_eq]
  congr 1
  omega

theorem window_ne_nextEntry (h : At r P C) {k : Nat} (hk : k < r.numhist.toNat) :
    (C + k) % r.nhist ≠ nextEntry r := by
  have hle := h.num_le
  have hsize := h.size
  rw [h.nextEntry_eq_window (by omega)]
  unfold keepFileCount at *
  exact mod_ne_of_lt (by omega) (by omega)

theorem dates_append (h : At r P C) (hnum : 0 ≤ r.numhist) (d : Nat) (t : Fin fnameMax)
    (cp : Path) :
    (List.range (r.numhist.toNat + 1)).map
      (fun k => (r.opened d t cp).date ((C + k) % r.nhist)) = r.dates ++ [d] := by
  rw [List.range_succ, List.map_append, h.dates_eq]
  congr 1
  · refine List.map_congr_left fun k hk => ?_
    exact date_opened_other (h.window_ne_nextEntry (List.mem_range.mp hk))
  · simp [← h.nextEntry_eq_window hnum, date_opened_self]

theorem dates_opened (h : At r P C) (hnum : 0 ≤ r.numhist) {d : Nat}
    (hd : r.date r.prodhistp < d) (t : Fin fnameMax) (cp : Path) :
    (r.opened d t cp).dates = accept (r.nhist - keepFileCount) r.dates d := by
  have hlen : r.dates.length = r.numhist.toNat := by simp [Ring.dates]
  have hsize := h.size
  have happ := h.dates_append hnum d t cp
  rw [(h.opened hd t cp).dates_eq, opened_nhist, opened_numhist]
  unfold accept
  by_cases hf : r.Full
  · have hf' : (r.nhist : Int) - keepFileCount < r.numhist + 1 := hf
    rw [if_pos hf, if_pos hf, if_neg (by rw [hlen]; omega), ← happ, List.range_succ_eq_map]
    simp only [List.map_cons, List.map_map, List.tail_cons]
    refine List.map_congr_left fun k _ => ?_
    simp only [Function.comp_apply]
    congr 2
    omega
  · have hf' : ¬ (r.nhist : Int) - keepFileCount < r.numhist + 1 := hf
    rw [if_neg hf, if_neg hf, if_pos (by rw [hlen]; omega), ← happ]
    congr 2
    omega

theorem dates_removed (h : At r P C) : r.removed.dates = r.dates.tail := by
  rw [h.removed.dates_eq, h.dates_eq]
  show (List.range (r.numhist - 1).toNat).map _ = _
  cases hk : r.numhist.toNat with
  | zero =>
    have hz : (r.numhist - 1).toNat = 0 := by omega
    simp [hz]
  | succ k =>
    have hz : (r.numhist - 1).toNat = k := by omega
    rw [hz, List.range_succ_eq_map]
    simp only [List.map_cons, List.map_map, List.tail_cons]
    refine List.map_congr_left fun j _ => ?_
    simp only [Function.comp_apply, date_removed]
    show r.date ((C + 1 + j) % r.nhist) = _
    congr 2
    omega

theorem dates_head (h : At r P C) (hpos : 0 < r.numhist) :
    r.dates.head? = some (r.date r.conshistp) := by
  obtain ⟨k, hk⟩ : ∃ k, r.numhist.toNat = k + 1 := ⟨r.numhist.toNat - 1, by omega⟩
  have hlt : r.conshistp < r.nhist := by
    rw [h.cons]
    exact Nat.mod_lt _ h.pos
  simp [Ring.dates, hk, List.range_succ_eq_map, Nat.mod_eq_of_lt hlt]

end At

/-! ## The refinement -/

/-- The ring holds the queue `q`, in the slots of its window. -/
structure Refines {cap : Nat} (r : Ring) (q : BoundedQueue Nat cap) : Prop where
  pos : ∃ P C, At r P C
  num_nonneg : 0 ≤ r.numhist
  cap_eq : cap = r.nhist - keepFileCount
  items : r.dates = q.items
  newest : q.newest = if r.date r.prodhistp = 0 then ⊥ else WithBot.some (r.date r.prodhistp)

section Step
variable {cap : Nat} {r r' : Ring} {q : BoundedQueue Nat cap}

theorem refines_histinit (nh : Int) :
    Refines (histinit nh .static)
      (BoundedQueue.empty : BoundedQueue Nat ((histinit nh .static).nhist - keepFileCount)) where
  pos := ⟨0, 0, at_histinit nh⟩
  num_nonneg := le_refl _
  cap_eq := rfl
  items := rfl
  newest := rfl

/-- The producer's date tells whether a date is newer than the queue. -/
theorem Refines.newer_iff (h : Refines r q) {d : Nat} (hd : 0 < d) :
    q.Newer d ↔ r.date r.prodhistp < d := by
  unfold BoundedQueue.Newer
  rw [h.newest]
  split
  · rename_i h₀
    simp only [h₀, hd, iff_true]
    exact WithBot.bot_lt_coe d
  · exact WithBot.coe_lt_coe

theorem Refines.congr (h : Refines r q) (hn : r'.nhist = r.nhist)
    (hp : r'.prodhistp = r.prodhistp) (hc : r'.conshistp = r.conshistp)
    (hnum : r'.numhist = r.numhist) (hd : ∀ i, r'.date i = r.date i) : Refines r' q where
  pos := by
    obtain ⟨P, C, hat⟩ := h.pos
    exact ⟨P, C, hat.congr hn hp hc hnum hd⟩
  num_nonneg := by rw [hnum]; exact h.num_nonneg
  cap_eq := by rw [hn]; exact h.cap_eq
  items := by
    rw [← h.items]
    simp only [Ring.dates, hn, hc, hnum, hd]
  newest := by
    rw [hp, hd]
    exact h.newest

theorem Refines.push_opened (h : Refines r q) {d : Nat} (hd : r.date r.prodhistp < d)
    (t : Fin fnameMax) (cp : Path) : Refines (r.opened d t cp) (q.push d) := by
  obtain ⟨P, C, hat⟩ := h.pos
  have hnew : q.Newer d := (h.newer_iff (by omega)).mpr hd
  refine ⟨⟨_, _, hat.opened hd t cp⟩, ?_, ?_, ?_, ?_⟩
  · have := h.num_nonneg
    rw [opened_numhist]
    split <;> omega
  · rw [opened_nhist]
    exact h.cap_eq
  · rw [BoundedQueue.push_items_of_newer hnew, ← h.items, hat.dates_opened h.num_nonneg hd,
      ← h.cap_eq]
  · rw [BoundedQueue.push_newest_of_newer hnew, opened_prodhistp, date_opened_self,
      if_neg (by omega)]

theorem Refines.pop_removed (h : Refines r q) (hpos : 0 < r.numhist) :
    Refines r.removed q.pop := by
  obtain ⟨P, C, hat⟩ := h.pos
  refine ⟨⟨_, _, hat.removed⟩, ?_, h.cap_eq, ?_, ?_⟩
  · show 0 ≤ r.numhist - 1
    omega
  · rw [hat.dates_removed, h.items]
    rfl
  · rw [date_removed]
    exact h.newest

/-- One allowed call of the C code is the queue's own step. -/
theorem Refines.step {op : HistOp} (h : Refines r q) (hop : Allowed r op)
    (hstep : histStep r op = some r') : Refines r' (QueueOp.apply q op.toQueueOp) := by
  cases op with
  | put path dt tent =>
    have hd₀ := ull_pos hop.1
    show Refines r' (q.push (ull dt))
    cases histput_cases hstep with
    | refused ht _ =>
      have hrange := hop.2
      omega
    | same t ht hp hd h' =>
      subst h'
      have hold : ¬ q.Newer (ull dt) := fun hn => by
        have := (h.newer_iff hd₀).mp hn
        rw [hd] at this
        exact lt_irrefl _ this
      rw [BoundedQueue.push_of_not_newer hold]
      exact h.congr rfl rfl rfl rfl fun i => date_store r _ i t path
    | new t ht hp hd hin h' =>
      subst h'
      exact (h.push_opened hd t path).congr rfl rfl rfl rfl fun _ => rfl
    | late t ht i hi hd hdi hs h' =>
      subst h'
      have hold : ¬ q.Newer (ull dt) := fun hn => by
        have hlt : r.date r.prodhistp < ull dt := (h.newer_iff hd₀).mp hn
        exact absurd hd (Nat.lt_asymm hlt)
      rw [BoundedQueue.push_of_not_newer hold]
      exact h.congr rfl rfl rfl rfl fun j => date_store r i j t path
    | lost ht hd hs h' =>
      subst h'
      have hold : ¬ q.Newer (ull dt) := fun hn => by
        have hlt : r.date r.prodhistp < ull dt := (h.newer_iff hd₀).mp hn
        exact absurd hd (Nat.lt_asymm hlt)
      rw [BoundedQueue.push_of_not_newer hold]
      exact h.congr rfl rfl rfl rfl fun _ => rfl
  | get =>
    obtain rfl := histStep_get hstep
    exact h
  | remove =>
    obtain ⟨_, _, rfl⟩ := histremove_iff.mp hstep
    exact h.pop_removed hop

theorem Refines.total {op : HistOp} (h : Refines r q) (hn : r.nhist ≤ maxHistory)
    (hop : Allowed r op) : ∃ r', histStep r op = some r' := by
  obtain ⟨P, C, hat⟩ := h.pos
  have hfit := hat.fits hn
  cases op with
  | put path dt tent => exact histput_total hfit path dt hop.2.1 hop.2.2
  | get =>
    have hpos : 0 < r.numhist := hop
    exact ⟨r, by simp only [histStep, histget_total hfit hpos]⟩
  | remove => exact ⟨_, histremove_total hfit⟩

theorem histput_nhist {path : Path} {dt : Int64} {tent : Int}
    (h : histput path dt tent r = some r') : r'.nhist = r.nhist := by
  cases histput_cases h with
  | refused _ h' => rw [h']
  | same _ _ _ _ h' => rw [h']; rfl
  | new t _ _ _ _ h' => rw [h']; exact opened_nhist r (ull dt) t path
  | late _ _ _ _ _ _ _ h' => rw [h']; rfl
  | lost _ _ _ h' => rw [h']

theorem histStep_nhist {op : HistOp} (h : histStep r op = some r') : r'.nhist = r.nhist := by
  cases op with
  | put path dt tent => exact histput_nhist h
  | get => rw [histStep_get h]
  | remove =>
    obtain ⟨_, _, rfl⟩ := histremove_iff.mp h
    rfl

end Step

/-- The queue a sequence of calls stands for. -/
def queueOf (nh : Int) (ops : List HistOp) :
    BoundedQueue Nat ((histinit nh .static).nhist - keepFileCount) :=
  QueueOp.run .empty (ops.map HistOp.toQueueOp)

theorem exec_refines {nh : Int} (hn : (histinit nh .static).nhist ≤ maxHistory)
    {ops : List HistOp} (hops : Along histStep Allowed (histinit nh .static) ops) :
    ∃ r, exec histStep (histinit nh .static) ops = some r ∧
      r.nhist = (histinit nh .static).nhist ∧ Refines r (queueOf nh ops) := by
  have hrun : ∃ r, exec histStep (histinit nh .static) ops = some r ∧
      (r.nhist = (histinit nh .static).nhist ∧
        ∃ q : BoundedQueue Nat ((histinit nh .static).nhist - keepFileCount), Refines r q) := by
    refine exec_isSome_along ?_ ⟨rfl, _, refines_histinit nh⟩ hops
    rintro s l ⟨hs, q, hq⟩ hl
    obtain ⟨t, ht⟩ := hq.total (by rw [hs]; exact hn) hl
    exact ⟨t, ht, (histStep_nhist ht).trans hs, _, hq.step hl ht⟩
  obtain ⟨r, hr, hsize, _⟩ := hrun
  refine ⟨r, hr, hsize, ?_⟩
  have hsim : Refines r (ops.foldl (fun q op => QueueOp.apply q (HistOp.toQueueOp op))
      (.empty : BoundedQueue Nat ((histinit nh .static).nhist - keepFileCount))) :=
    exec_simulation (R := fun s (q : BoundedQueue Nat _) => Refines s q)
      (fun hR hl ht => hR.step hl ht) (refines_histinit nh) hops hr
  rwa [← List.foldl_map] at hsim

/-- Once an entry was opened, the window ends at the producer's slot. -/
theorem At.window_end {r : Ring} {P C : Nat} (h : At r P C) (hused : r.date r.prodhistp ≠ 0) :
    ((r.conshistp : Int) + r.numhist) % r.nhist = ((r.prodhistp : Int) + 1) % r.nhist := by
  have hn := h.num
  rw [Ring.used, if_neg hused] at hn
  rw [hn, h.cons, h.prod]
  push_cast
  rw [Int.emod_add_emod, Int.emod_add_emod]
  congr 1
  omega

theorem Refines.opened_of_put {nh : Int} {ops : List HistOp} {r : Ring}
    (h : Refines r (queueOf nh ops)) {path : Path} {dt : Int64} {tent : Int}
    (hput : .put path dt tent ∈ ops) : r.date r.prodhistp ≠ 0 := by
  have hmem : QueueOp.push (ull dt) ∈ ops.map HistOp.toQueueOp :=
    List.mem_map.mpr ⟨_, hput, rfl⟩
  have hle := QueueOp.le_newest_run (q := (.empty : BoundedQueue Nat
    ((histinit nh .static).nhist - keepFileCount))) (Or.inr hmem)
  change _ ≤ (queueOf nh ops).newest at hle
  rw [h.newest] at hle
  intro h₀
  rw [if_pos h₀] at hle
  exact absurd hle (not_le.mpr (WithBot.bot_lt_coe _))

theorem queueOf_append (nh : Int) (ops₁ ops₂ : List HistOp) :
    queueOf nh (ops₁ ++ ops₂) = QueueOp.run (queueOf nh ops₁) (ops₂.map HistOp.toQueueOp) := by
  simp [queueOf, QueueOp.run]

theorem Refines.head {cap : Nat} {r : Ring} {q : BoundedQueue Nat cap} (h : Refines r q)
    (hpos : 0 < r.numhist) : q.items.head? = some (r.date r.conshistp) := by
  obtain ⟨P, C, hat⟩ := h.pos
  rw [← h.items]
  exact hat.dates_head hpos

section Calls
variable {cap : Nat} {r : Ring} {q : BoundedQueue Nat cap}

/-- A `histput` with any date and type. -/
theorem Refines.put {r' : Ring} (h : Refines r q) {path : Path} {dt : Int64} {tent : Int}
    (hput : histput path dt tent r = some r') :
    (¬(¬(tent < 0 ∨ tent > (fnameMax : Int)) ∧ r.date r.prodhistp < ull dt) ∧ Refines r' q) ∨
      (¬(tent < 0 ∨ tent > (fnameMax : Int)) ∧ r.date r.prodhistp < ull dt ∧
        Refines r' (q.push (ull dt))) := by
  cases histput_cases hput with
  | refused ht h' =>
    subst h'
    exact .inl ⟨fun hc => hc.1 ht, h⟩
  | same t _ _ hd h' =>
    subst h'
    refine .inl ⟨fun hc => absurd hc.2 ?_, h.congr rfl rfl rfl rfl fun i => date_store r _ i t path⟩
    rw [hd]
    exact lt_irrefl _
  | new t ht _ hd _ h' =>
    subst h'
    refine .inr ⟨?_, hd, (h.push_opened hd t path).congr rfl rfl rfl rfl fun _ => rfl⟩
    have := t.isLt
    omega
  | late t _ i _ hd _ _ h' =>
    subst h'
    exact .inl ⟨fun hc => absurd hc.2 (Nat.lt_asymm hd),
      h.congr rfl rfl rfl rfl fun j => date_store r i j t path⟩
  | lost _ hd _ h' =>
    subst h'
    exact .inl ⟨fun hc => absurd hc.2 (Nat.lt_asymm hd), h.congr rfl rfl rfl rfl fun _ => rfl⟩

/-- The head of the queue is the date of the consumer's slot. -/
theorem Refines.head_toList (h : Refines r q) (hpos : 0 < r.numhist) :
    q.items.head?.toList = [r.date r.conshistp] := by
  rw [h.head hpos]
  rfl

theorem Refines.full_iff (h : Refines r q) : r.Full ↔ ¬ q.items.length < cap := by
  obtain ⟨P, C, hat⟩ := h.pos
  have hsize := hat.size
  have hnum := h.num_nonneg
  have hlen : q.items.length = r.numhist.toNat := by
    rw [← h.items]
    simp [Ring.dates]
  rw [hlen, h.cap_eq]
  unfold Ring.Full keepFileCount at *
  omega

/-- A full queue gives up its head. -/
theorem Refines.full_head (h : Refines r q) (hfull : r.Full) (d : Nat) :
    (q.items ++ [d]).head?.toList = [r.date r.conshistp] := by
  obtain ⟨P, C, hat⟩ := h.pos
  have hsize := hat.size
  have hpos : 0 < r.numhist := by
    unfold Ring.Full keepFileCount at *
    omega
  have hhead := h.head hpos
  obtain ⟨rest, hrest⟩ : ∃ rest, q.items = r.date r.conshistp :: rest := by
    cases hi : q.items with
    | nil => simp [hi] at hhead
    | cons b rest =>
      rw [hi] at hhead
      exact ⟨rest, by rw [Option.some.inj hhead]⟩
  rw [hrest]
  rfl

end Calls

/-- The history ring is a bounded FIFO of dates. Every sequence of allowed calls
returns; the count stays within its bounds, the window of waiting slots ends at
the producer, its dates increase and are the items of the abstract queue,
`histget` hands out the head, and a later `histget` hands out a newer date than
an earlier one as soon as a `histremove` lies between them. -/
theorem history_refines_bounded_fifo {nh : Int} (hn : (histinit nh .static).nhist ≤ maxHistory)
    {ops : List HistOp} (hops : Along histStep Allowed (histinit nh .static) ops) :
    ∃ r, exec histStep (histinit nh .static) ops = some r ∧
      (0 ≤ r.numhist ∧ r.numhist ≤ r.nhist - keepFileCount) ∧
      ((∃ path dt tent, .put path dt tent ∈ ops) →
        ((r.conshistp : Int) + r.numhist) % r.nhist = ((r.prodhistp : Int) + 1) % r.nhist) ∧
      r.dates.Pairwise (· < ·) ∧
      r.dates = (queueOf nh ops).items ∧
      (0 < r.numhist → ∃ hp, histget r = some (r, some hp) ∧
        (queueOf nh ops).items.head? = some (r.date hp)) ∧
      (∀ ops₁ ops₂ r₁ hp₁ hp₂, ops = ops₁ ++ ops₂ →
        exec histStep (histinit nh .static) ops₁ = some r₁ → .remove ∈ ops₂ →
        histget r₁ = some (r₁, some hp₁) → histget r = some (r, some hp₂) →
        r₁.date hp₁ < r.date hp₂) := by
  obtain ⟨r, hr, hsize, href⟩ := exec_refines hn hops
  obtain ⟨P, C, hat⟩ := href.pos
  refine ⟨r, hr, ⟨href.num_nonneg, hat.num_le⟩, ?_, ?_, href.items, ?_, ?_⟩
  · rintro ⟨path, dt, tent, hput⟩
    exact hat.window_end (href.opened_of_put hput)
  · rw [href.items]
    exact (queueOf nh ops).sorted
  · intro hpos
    exact ⟨_, histget_total (hat.fits (by omega)) hpos, href.head hpos⟩
  · rintro ops₁ ops₂ r₁ hp₁ hp₂ rfl hr₁ hmem hget₁ hget₂
    obtain ⟨hpos₁, _, rfl⟩ := histget_of_pos hget₁
    obtain ⟨hpos₂, _, rfl⟩ := histget_of_pos hget₂
    have hops₁ := ((along_append_iff hr₁).mp hops).1
    obtain ⟨r₁', hr₁', _, href₁⟩ := exec_refines hn hops₁
    obtain rfl : r₁ = r₁' := Option.some.inj (hr₁.symm.trans hr₁')
    have hhead₂ := href.head hpos₂
    rw [queueOf_append] at hhead₂
    have hpop : QueueOp.pop ∈ ops₂.map HistOp.toQueueOp := List.mem_map.mpr ⟨_, hmem, rfl⟩
    exact QueueOp.head_lt_head_of_pop (href₁.head hpos₁) hpop hhead₂

theorem history_refines_bounded_fifo_five :
    ∃ r, exec histStep (histinit 5 .static)
        [.put ⟨[97], by decide⟩ 10 0, .put ⟨[98], by decide⟩ 20 0, .put ⟨[99], by decide⟩ 15 1,
          .put ⟨[100], by decide⟩ 30 2, .get, .remove, .put ⟨[101], by decide⟩ 40 0] = some r ∧
      0 ≤ r.numhist ∧ r.dates = [30, 40] := by
  obtain ⟨r, hr, hnum, _, _, hitems, _⟩ :=
    @history_refines_bounded_fifo 5 (by decide) [.put ⟨[97], by decide⟩ 10 0,
      .put ⟨[98], by decide⟩ 20 0, .put ⟨[99], by decide⟩ 15 1, .put ⟨[100], by decide⟩ 30 2,
      .get, .remove, .put ⟨[101], by decide⟩ 40 0] (by decide)
  exact ⟨r, hr, hnum.1, hitems.trans (by decide)⟩

end JitDt.Misclib
