import JitDt.Lwatcher.Count

/-!
# The dates that go through lwatcher

While `numhist` is a count, the ring between the two threads is the bounded queue of dates, step by
step. So every date that was opened has been released or waits, and the replies to `CMD_GET` send
dates in the order of time, none of them twice.
-/

namespace JitDt.Lwatcher

set_option autoImplicit false

open Misclib Jitcclient Machine

/-- The date for which a `histput` opens an entry. -/
def openedDate (s : State) : Label → List Nat
  | .histput _ dt tent =>
    if ¬(tent < 0 ∨ tent > (fnameMax : Int)) ∧ s.ring.date s.ring.prodhistp < ull dt then [ull dt]
    else []
  | _ => []

/-- The date whose entry is released, for the client or by force. -/
def releasedDate (s : State) : Label → List Nat
  | .histput _ dt tent => if Forces s.ring dt tent then [s.ring.date s.ring.conshistp] else []
  | .histremove => [s.ring.date s.ring.conshistp]
  | _ => []

/-- The date of the reply that goes out to a `CMD_GET`. -/
def sentDate (s : State) (l : Label) : List Nat :=
  match s.pc, (step s l).map State.pc with
  | .serve _ hp, some (.histremove .get) => [s.ring.date hp]
  | _, _ => []

/-- The slot being sent was given to a new date after its `histget`, a turn of the ring later. -/
def Overtaken (s : State) (l : Label) : Prop :=
  ∃ d ∈ sentDate s l, s.ring.date s.ring.conshistp < d

instance (s : State) (l : Label) : Decidable (Overtaken s l) :=
  inferInstanceAs (Decidable (∃ d ∈ _, _))

section Step
variable {cap : Nat} {s t : State} {q : BoundedQueue Nat cap} {l : Label}

theorem refines_same {r r' : Ring} (h : Refines r q) (hs : SameRing r r') : Refines r' q :=
  h.congr hs.nhist hs.prodhistp hs.conshistp hs.numhist fun i => by rw [Ring.date, hs.history]; rfl

/-- What is removed was waiting. -/
theorem removing_pos (hnum : 0 ≤ s.ring.numhist) (hheld : Held s)
    (hclose : ¬ ClosesEmpty s .histremove) (hstep : step s .histremove = some t) :
    0 < s.ring.numhist := by
  cases step_cases hstep with
  | histremove cmd r hpc _ =>
    by_cases hcmd : cmd = .close
    · subst hcmd
      by_contra hneg
      exact hclose ⟨by rw [hpc]; rfl, by omega⟩
    · apply hheld
      rw [hpc]
      cases cmd <;> trivial

/-- One step of the two threads is one operation of the queue. -/
theorem step_queue (h : Refines s.ring q) (hheld : Held s) (hclose : ¬ ClosesEmpty s l)
    (hstep : step s l = some t) :
    ∃ op : QueueOp Nat, Refines t.ring (op.apply q) ∧ openedDate s l = op.accepted q ∧
      releasedDate s l = op.released q ∧ (l = .histremove → op = .pop) := by
  cases step_effect hstep with
  | histput path dt tent hl hput _ _ =>
    subst hl
    rcases h.put hput with ⟨hold, hq⟩ | ⟨hrange, hnew, hq⟩
    · refine ⟨.look, hq, by simp only [openedDate, if_neg hold]; rfl, ?_, by simp⟩
      have hforces : ¬ Forces s.ring dt tent := fun hf => hold ⟨hf.1, hf.2.1⟩
      simp only [releasedDate, if_neg hforces]
      rfl
    · have hd : q.Newer (ull dt) := (h.newer_iff (by omega)).mpr hnew
      refine ⟨.push (ull dt), hq, ?_, ?_, by simp⟩
      · simp only [openedDate, QueueOp.accepted, if_pos (And.intro hrange hnew), if_pos hd]
      · have hiff : Forces s.ring dt tent ↔ s.ring.Full :=
          ⟨fun hf => hf.2.2, fun hf => ⟨hrange, hnew, hf⟩⟩
        by_cases hfull : s.ring.Full
        · simp only [releasedDate, QueueOp.released, if_pos (hiff.mpr hfull), h.full_head hfull,
            if_pos (And.intro hd (h.full_iff.mp hfull))]
        · have hlt : ¬ (q.Newer (ull dt) ∧ ¬ q.items.length < cap) :=
            fun hc => hfull (h.full_iff.mpr hc.2)
          simp only [releasedDate, QueueOp.released, if_neg (fun hf => hfull (hiff.mp hf)),
            if_neg hlt]
  | histremove hl hrem _ =>
    subst hl
    have hpos := removing_pos h.num_nonneg hheld hclose hstep
    rw [(histremove_iff.mp hrem).2.2]
    exact ⟨.pop, h.pop_removed hpos, rfl, (h.head_toList hpos).symm, fun _ => rfl⟩
  | getReply files heap sent opt hp hl _ hr _ =>
    subst hl
    exact ⟨.look, hr ▸ h, rfl, rfl, by simp⟩
  | quiet hput hrem hrep hsame _ =>
    refine ⟨.look, refines_same h hsame, ?_, ?_, fun hl => absurd hl hrem⟩
    · cases l <;> first | rfl | exact absurd rfl (hput _ _ _)
    · cases l <;> first | rfl | exact absurd rfl (hput _ _ _) | exact absurd rfl hrem

end Step

/-! ## Every date opened was released or waits -/

/-- The queue `q` of the run `ls`, between the dates that were opened and those that were
released. -/
structure Booked (nh : Int) (sn : Nat) {cap : Nat} (ls : List Label) (s : State)
    (q : BoundedQueue Nat cap) : Prop where
  refines : Refines s.ring q
  held : Held s
  books : collect step openedDate (init nh sn) ls =
    collect step releasedDate (init nh sn) ls ++ q.items
  sorted : (collect step openedDate (init nh sn) ls).Pairwise (· < ·)
  newest : ∀ d ∈ collect step openedDate (init nh sn) ls, (d : WithBot Nat) ≤ q.newest

section Runs
variable {nh : Int} {sn cap : Nat} {ls : List Label} {s t : State} {l : Label}
variable {q : BoundedQueue Nat cap}

theorem booked_init : Booked nh sn [] (init nh sn)
    (.empty : BoundedQueue Nat ((histinit nh .static).nhist - keepFileCount)) where
  refines := refines_histinit nh
  held := fun hpc => hpc.elim
  books := rfl
  sorted := .nil
  newest := by simp [collect]

theorem Booked.step (h : Booked nh sn ls s q) (hrun : exec step (init nh sn) ls = some s)
    (hclose : ¬ ClosesEmpty s l) (hstep : Lwatcher.step s l = some t) :
    ∃ op : QueueOp Nat, Booked nh sn (ls ++ [l]) t (op.apply q) ∧
      (l = .histremove → op = .pop) := by
  obtain ⟨op, hq, hopened, hreleased, hpop⟩ := step_queue h.refines h.held hclose hstep
  obtain ⟨P, C, hat⟩ := h.refines.pos
  refine ⟨op, ⟨hq, h.held.step hat hstep, ?_, ?_, ?_⟩, hpop⟩
  · rw [collect_snoc hrun, collect_snoc hrun, h.books, hopened, hreleased, List.append_assoc,
      List.append_assoc, QueueOp.items_append_accepted]
  · rw [collect_snoc hrun, hopened, List.pairwise_append]
    refine ⟨h.sorted, ?_, ?_⟩
    · cases op with
      | push d =>
        simp only [QueueOp.accepted]
        split
        · exact List.pairwise_singleton _ _
        · exact .nil
      | look => exact .nil
      | pop => exact .nil
    · intro d hd e he
      have hnew := (QueueOp.newer_of_mem_accepted he).1
      exact WithBot.coe_lt_coe.mp ((h.newest d hd).trans_lt hnew)
  · intro d hd
    rw [collect_snoc hrun, hopened] at hd
    rcases List.mem_append.mp hd with hold | hnew
    · exact (h.newest d hold).trans (QueueOp.newest_le_apply q op)
    · exact (QueueOp.newer_of_mem_accepted hnew).2.ge

theorem exec_booked (hclose : Along step (fun s l => ¬ ClosesEmpty s l) (init nh sn) ls)
    (hrun : exec step (init nh sn) ls = some s) :
    ∃ q : BoundedQueue Nat ((histinit nh .static).nhist - keepFileCount), Booked nh sn ls s q := by
  induction ls using List.reverseRecOn generalizing s with
  | nil =>
    obtain rfl : init nh sn = s := by simpa using hrun
    exact ⟨_, booked_init⟩
  | append_singleton ls l ih =>
    obtain ⟨u, hu, hstep⟩ := exec_snoc_iff.mp hrun
    obtain ⟨hbefore, hl⟩ := (along_snoc_iff hu).mp hclose
    obtain ⟨q, hq⟩ := ih hbefore hu
    obtain ⟨op, hop, _⟩ := hq.step hu hl hstep
    exact ⟨_, hop⟩

/-- As long as no `CMD_CLOSE` comes on an empty ring: the dates opened so far are, in the order of
time, those that were released and then those that wait. -/
theorem dates_accounted (hclose : Along step (fun s l => ¬ ClosesEmpty s l) (init nh sn) ls)
    (hrun : exec step (init nh sn) ls = some s) :
    collect step openedDate (init nh sn) ls =
        collect step releasedDate (init nh sn) ls ++ s.ring.dates ∧
      (collect step openedDate (init nh sn) ls).Pairwise (· < ·) := by
  obtain ⟨q, hq⟩ := exec_booked hclose hrun
  refine ⟨?_, hq.sorted⟩
  rw [hq.refines.items]
  exact hq.books

end Runs

/-! ## The dates that are sent -/

/-- The slot that the transfer thread got and has not sent. -/
def Pc.slot : Pc → Option Nat
  | .test _ hp => some hp
  | .serve _ hp => some hp
  | _ => none

/-- A reply is out and its entry still stands at the head of the queue. -/
def Pc.Replied : Pc → Prop
  | .histremove .get => True
  | _ => False

/-- All dates that wait or will come are newer than those sent, but for the one just sent. -/
structure InOrder {cap : Nat} (opened sent : List Nat) (s : State) (q : BoundedQueue Nat cap) :
    Prop where
  sorted : sent.Pairwise (· < ·)
  known : ∀ d ∈ sent, d ∈ opened
  least : ∀ d ∈ sent, q.Above (· ≤ ·) d
  newer : ¬ s.pc.Replied → ∀ d ∈ sent, q.Above (· < ·) d
  slot : ∀ hp, s.pc.slot = some hp →
    s.ring.date hp ∈ opened ∧ ∀ d ∈ sent, d < s.ring.date hp

section Order
variable {cap : Nat} {opened sent : List Nat} {s t : State} {l : Label}
variable {q : BoundedQueue Nat cap}

theorem InOrder.apply (h : InOrder opened sent s q) (op : QueueOp Nat) :
    InOrder opened sent s (op.apply q) :=
  ⟨h.sorted, h.known, fun d hd => QueueOp.above_apply le_of_lt (h.least d hd) op,
    fun hs d hd => QueueOp.above_apply id (h.newer hs d hd) op, h.slot⟩

theorem InOrder.open (h : InOrder opened sent s q) (dates : List Nat) :
    InOrder (opened ++ dates) sent s q :=
  ⟨h.sorted, fun d hd => List.mem_append_left _ (h.known d hd), h.least, h.newer,
    fun hp hhp => ⟨List.mem_append_left _ (h.slot hp hhp).1, (h.slot hp hhp).2⟩⟩

/-- The transfer thread moves on and sends nothing. -/
theorem InOrder.move (h : InOrder opened sent s q) (hs : ¬ s.pc.Replied)
    (hslot : ∀ hp, t.pc.slot = some hp →
      t.ring.date hp ∈ opened ∧ ∀ d ∈ sent, d < t.ring.date hp) :
    InOrder opened sent t q :=
  ⟨h.sorted, h.known, h.least, fun _ => h.newer hs, hslot⟩

theorem sentDate_eq_nil (hstep : step s l = some t)
    (h : ∀ opt hp, s.pc = .serve opt hp → t.pc = .histremove .get → False) : sentDate s l = [] := by
  unfold sentDate
  rw [hstep]
  split
  · rename_i heq
    exact (h _ _ ‹_› (Option.some.inj heq)).elim
  · rfl

/-- `histget` hands out the head of the queue. -/
theorem InOrder.got (h : InOrder opened sent s q) (hs : ¬ s.pc.Replied) {r : Ring} {req : Request}
    {res : Ring × Option Nat} (hres : Misclib.histget r = some res)
    (hq : Refines (s.got req res).ring q) (hitems : ∀ d ∈ q.items, d ∈ opened) :
    InOrder opened sent (s.got req res) q := by
  refine h.move hs ?_
  intro hp hslot
  obtain ⟨r', o⟩ := res
  cases o with
  | none => cases hslot
  | some hp' =>
    obtain rfl : hp' = hp := Option.some.inj hslot
    obtain ⟨hpos, rfl, rfl⟩ := histget_of_pos hres
    have hhead : r'.date r'.conshistp ∈ q.items := List.mem_of_head? (hq.head hpos)
    exact ⟨hitems _ hhead, fun d hd => (h.newer hs d hd).1 _ hhead⟩

/-- A new date in the slot that is being sent is newer than all dates sent before. -/
theorem InOrder.put {opened' : List Nat} (h : InOrder opened sent s q) {path : Path} {dt : Int64}
    {tent : Int} {r : Ring} (hput : Misclib.histput path dt tent s.ring = some r)
    (hq : Refines s.ring q) (hopened : opened' = opened ++ openedDate s (.histput path dt tent)) :
    InOrder opened' sent { s with ring := r } q := by
  subst hopened
  obtain ⟨P, C, hat⟩ := hq.pos
  have hdate : ∀ d ∈ sent, d ≤ s.ring.date s.ring.prodhistp := by
    intro d hd
    have hle := (h.least d hd).2
    rw [hq.newest] at hle
    split at hle
    · exact absurd hle (not_le.mpr (WithBot.bot_lt_coe _))
    · exact WithBot.coe_le_coe.mp hle
  refine ⟨h.sorted, (h.open _).known, h.least, h.newer, ?_⟩
  intro hp hslot
  obtain ⟨hmem, hlt⟩ := h.slot hp hslot
  cases hat.histput_effect hput with
  | kept _ _ hd _ =>
    simp only [hd]
    exact ⟨List.mem_append_left _ hmem, hlt⟩
  | opened _ hnew hself hother _ =>
    by_cases hp' : hp = nextEntry s.ring
    · subst hp'
      have hrange : ¬(tent < 0 ∨ tent > (fnameMax : Int)) := by
        intro hout
        rw [Misclib.histput, if_pos hout] at hput
        obtain rfl : s.ring = r := Option.some.inj hput
        have := hat.newest (nextEntry s.ring)
        omega
      simp only [hself, openedDate, if_pos (And.intro hrange hnew)]
      exact ⟨List.mem_append_right _ (List.mem_singleton.mpr rfl),
        fun d hd => (hdate d hd).trans_lt hnew⟩
    · simp only [hother hp hp']
      exact ⟨List.mem_append_left _ hmem, hlt⟩

/-- The reply to a `CMD_GET` goes out, or the connection ends without one. -/
theorem InOrder.reply (h : InOrder opened sent s q) {opt : Opt} {hp : Nat}
    (hpc : s.pc = .serve opt hp) (hq : Refines s.ring q)
    (hheld : Held s) (hstep : step s l = some t) (hover : ¬ Overtaken s l)
    (ht : t.pc = .exited ∨ t.pc = .histremove .get ∨ t.pc = .accept) :
    InOrder opened (sent ++ sentDate s l) t q := by
  have hs : ¬ s.pc.Replied := by
    rw [hpc]
    exact id
  by_cases hget : t.pc = .histremove .get
  · have hsent : sentDate s l = [s.ring.date hp] := by
      unfold sentDate
      rw [hstep, hpc, Option.map_some, hget]
    obtain ⟨hmem, hlt⟩ := h.slot hp (by rw [hpc]; rfl)
    have hpos : 0 < s.ring.numhist := by
      apply hheld
      rw [hpc]
      trivial
    have hhead := BoundedQueue.above_head (hq.head hpos)
    have hle : s.ring.date hp ≤ s.ring.date s.ring.conshistp := by
      by_contra hgt
      exact hover ⟨s.ring.date hp, by rw [hsent]; simp, Nat.lt_of_not_le hgt⟩
    rw [hsent]
    refine ⟨?_, ?_, ?_, fun hreplied => ?_, ?_⟩
    · rw [List.pairwise_append]
      exact ⟨h.sorted, List.pairwise_singleton _ _, fun d hd e he =>
        (List.mem_singleton.mp he) ▸ hlt d hd⟩
    · intro d hd
      rcases List.mem_append.mp hd with hold | hnew
      · exact h.known d hold
      · exact (List.mem_singleton.mp hnew) ▸ hmem
    · intro d hd
      rcases List.mem_append.mp hd with hold | hnew
      · exact h.least d hold
      · rw [List.mem_singleton.mp hnew]
        exact ⟨fun e he => hle.trans (hhead.1 e he), (WithBot.coe_le_coe.mpr hle).trans hhead.2⟩
    · rw [hget] at hreplied
      exact absurd trivial hreplied
    · intro hp' hslot
      rw [hget] at hslot
      cases hslot
  · rw [sentDate_eq_nil hstep fun _ _ _ hpc' => hget hpc', List.append_nil]
    refine h.move hs ?_
    intro hp' hslot
    rcases ht with hpc' | hpc' | hpc'
    · rw [hpc'] at hslot
      cases hslot
    · exact absurd hpc' hget
    · rw [hpc'] at hslot
      cases hslot

/-- The entry that was sent leaves the queue. -/
theorem InOrder.removed (h : InOrder opened sent s q) (ht : t.pc = .accept) :
    InOrder opened sent t q.pop := by
  refine ⟨h.sorted, h.known, fun d hd => (h.least d hd).pop,
    fun _ d hd => (h.least d hd).pop_strict, ?_⟩
  intro hp hslot
  rw [ht] at hslot
  cases hslot

theorem InOrder.step (h : InOrder opened sent s q) {op : QueueOp Nat} (hq : Refines s.ring q)
    (hq' : Refines t.ring (op.apply q)) (hpop : l = .histremove → op = .pop)
    (hitems : ∀ d ∈ (op.apply q).items, d ∈ opened ++ openedDate s l) (hheld : Held s)
    (hover : ¬ Overtaken s l) (hstep : Lwatcher.step s l = some t) :
    InOrder (opened ++ openedDate s l) (sent ++ sentDate s l) t (op.apply q) := by
  have hafter := (h.open (openedDate s l)).apply op
  have hnil : s.pc.slot = none → sentDate s l = [] := by
    intro hslot
    refine sentDate_eq_nil hstep fun opt hp hpc _ => ?_
    rw [hpc] at hslot
    cases hslot
  have hmove : s.pc.slot = none → ¬ s.pc.Replied → t.pc.slot = none →
      InOrder (opened ++ openedDate s l) (sent ++ sentDate s l) t (op.apply q) := by
    intro hslot hs ht
    rw [hnil hslot, List.append_nil]
    refine hafter.move hs fun hp hhp => ?_
    rw [ht] at hhp
    cases hhp
  cases step_cases hstep with
  | histput path dt tent r hr =>
    rw [sentDate_eq_nil hstep (fun opt hp hpc hpc' => by cases hpc.symm.trans hpc'), List.append_nil]
    exact ⟨hafter.sorted, hafter.known, hafter.least, hafter.newer, (h.put hr hq rfl).slot⟩
  | accept sock hpc => exact hmove (by rw [hpc]; rfl) (by rw [hpc]; exact id) rfl
  | command cmd opt hpc =>
    refine hmove (by rw [hpc]; rfl) (by rw [hpc]; exact id) ?_
    cases cmd <;> first | rfl | exact congrArg Pc.slot hpc
  | histget req res hpc hres =>
    rw [hnil (by rw [hpc]; rfl), List.append_nil]
    exact hafter.got (by rw [hpc]; exact id) hres hq' hitems
  | histgetWake req res hpc hres =>
    rw [hnil (by rw [hpc]; rfl), List.append_nil]
    obtain ⟨r, hres⟩ := histget_of_resume hres
    exact hafter.got (by rw [hpc]; exact id) hres hq' hitems
  | test req hp t hpc ht =>
    have hrest : sentDate s .test = [] ∧ ∀ hp', t.pc.slot = some hp' → hp' = hp := by
      refine ⟨sentDate_eq_nil hstep (fun _ _ hpc' _ => by cases hpc.symm.trans hpc'), ?_⟩
      intro hp' hslot
      cases test_cases ht <;> cases hslot
      rfl
    rw [hrest.1, List.append_nil]
    refine hafter.move (by rw [hpc]; exact id) ?_
    intro hp' hslot
    rw [hrest.2 hp' hslot, (ring_test ht).1]
    exact hafter.slot hp (by rw [hpc]; rfl)
  | histwait req hpc => exact hmove (by rw [hpc]; rfl) (by rw [hpc]; exact id) rfl
  | histwaitWake req r hpc hr => exact hmove (by rw [hpc]; rfl) (by rw [hpc]; exact id) rfl
  | opened fname fd hpc => exact hmove (by rw [hpc]; rfl) (by rw [hpc]; exact id) rfl
  | notOpened fname hpc => exact hmove (by rw [hpc]; rfl) (by rw [hpc]; exact id) rfl
  | getReply files heap sent' opt hp t hpc hrep =>
    have hring := (ring_reply hrep).1
    exact hafter.reply hpc (hring ▸ hq') hheld hstep hover (pc_reply hrep)
  | histremove cmd r hpc hr =>
    rw [hnil (by rw [hpc]; rfl), List.append_nil, hpop rfl]
    exact (h.open _).removed (pc_removed s cmd r)

end Order

section Runs
variable {nh : Int} {sn : Nat} {ls : List Label} {s : State}

theorem inOrder_init {nh : Int} {sn cap : Nat} :
    InOrder [] [] (init nh sn) (.empty : BoundedQueue Nat cap) where
  sorted := .nil
  known := by simp
  least := by simp
  newer := by simp
  slot := fun hp hslot => by cases hslot

theorem exec_inOrder (hclose : Along step (fun s l => ¬ ClosesEmpty s l) (init nh sn) ls)
    (hover : Along step (fun s l => ¬ Overtaken s l) (init nh sn) ls)
    (hrun : exec step (init nh sn) ls = some s) :
    ∃ q : BoundedQueue Nat ((histinit nh .static).nhist - keepFileCount), Booked nh sn ls s q ∧
      InOrder (collect step openedDate (init nh sn) ls) (collect step sentDate (init nh sn) ls) s q := by
  induction ls using List.reverseRecOn generalizing s with
  | nil =>
    obtain rfl : init nh sn = s := by simpa using hrun
    exact ⟨_, booked_init, inOrder_init⟩
  | append_singleton ls l ih =>
    obtain ⟨u, hu, hstep⟩ := exec_snoc_iff.mp hrun
    obtain ⟨hclose', hcl⟩ := (along_snoc_iff hu).mp hclose
    obtain ⟨hover', hov⟩ := (along_snoc_iff hu).mp hover
    obtain ⟨q, hq, hin⟩ := ih hclose' hover' hu
    obtain ⟨op, hbook, hpop⟩ := hq.step hu hcl hstep
    refine ⟨_, hbook, ?_⟩
    rw [collect_snoc hu, collect_snoc hu]
    refine hin.step hq.refines hbook.refines hpop ?_ hq.held hov hstep
    intro d hd
    rw [← collect_snoc hu, hbook.books]
    exact List.mem_append_right _ hd

/-- Replies to `CMD_GET` send the dates in the order of time, each of them once at most, and only
dates that were opened; unless a slot was overtaken before it was sent. -/
theorem sent_dates_in_order (hclose : Along step (fun s l => ¬ ClosesEmpty s l) (init nh sn) ls)
    (hover : Along step (fun s l => ¬ Overtaken s l) (init nh sn) ls)
    (hrun : exec step (init nh sn) ls = some s) :
    (collect step sentDate (init nh sn) ls).Pairwise (· < ·) ∧
      (collect step sentDate (init nh sn) ls).Sublist (collect step openedDate (init nh sn) ls) := by
  obtain ⟨q, hq, hin⟩ := exec_inOrder hclose hover hrun
  refine ⟨hin.sorted, ?_⟩
  have hsub : (collect step sentDate (init nh sn) ls).Subperm
      (collect step openedDate (init nh sn) ls) :=
    List.Nodup.subperm (hin.sorted.imp fun hlt => hlt.ne) hin.known
  exact List.sublist_of_subperm_of_pairwise hsub hin.sorted hq.sorted

end Runs

/-! ## Nothing forced -/

/-- The date that was sent and not yet acknowledged. -/
def State.unacked (s : State) : List Nat :=
  match s.pc with
  | .histremove .get => [s.ring.date s.ring.conshistp]
  | _ => []

/-- The dates that are not sent yet. -/
def State.waiting (s : State) : List Nat :=
  match s.pc with
  | .histremove .get => s.ring.dates.tail
  | _ => s.ring.dates

/-- What is released is what was sent, and what is sent is the entry at `conshistp`. -/
structure Acked (nh : Int) (sn : Nat) (ls : List Label) (s : State) : Prop where
  sent : collect step sentDate (init nh sn) ls =
    collect step releasedDate (init nh sn) ls ++ s.unacked
  slot : ∀ hp, s.pc.slot = some hp → hp = s.ring.conshistp
  commands : ∀ cmd, s.pc = .histremove cmd → cmd = .get ∨ cmd = .close

section Acked
variable {nh : Int} {sn : Nat} {ls : List Label} {s t : State} {l : Label}

/-- Without a forced removal the consumer's entry is left alone. -/
theorem put_head {r r' : Ring} {P C : Nat} (hat : At r P C) {path : Path} {dt : Int64} {tent : Int}
    (hforces : ¬ Forces r dt tent) (hput : Misclib.histput path dt tent r = some r') :
    r'.conshistp = r.conshistp ∧ (0 < r.numhist → r'.date r.conshistp = r.date r.conshistp) := by
  have hn := histput_nhist hput
  obtain ⟨P', hat'⟩ := hat.histput hput
  rw [if_neg hforces] at hat'
  refine ⟨by rw [hat'.cons, hat.cons, hn], fun hpos => ?_⟩
  cases hat.histput_effect hput with
  | kept _ _ hd _ => exact hd _
  | opened _ _ _ hother _ =>
    have hne := hat.window_ne_nextEntry (k := 0) (by omega)
    rw [Nat.add_zero, ← hat.cons] at hne
    exact hother _ hne

theorem unacked_eq_nil (h : s.pc ≠ .histremove .get) : s.unacked = [] := by
  unfold State.unacked
  split
  · exact absurd ‹_› h
  · rfl

/-- The transfer thread moves on: nothing is sent and nothing released. -/
theorem Acked.move (h : Acked nh sn ls s) (hrun : exec step (init nh sn) ls = some s)
    (hsent : sentDate s l = []) (hreleased : releasedDate s l = []) (hs : s.unacked = [])
    (ht : t.unacked = []) (hslot : ∀ hp, t.pc.slot = some hp → hp = t.ring.conshistp)
    (hcommands : ∀ cmd, t.pc = .histremove cmd → cmd = .get ∨ cmd = .close) :
    Acked nh sn (ls ++ [l]) t where
  sent := by
    rw [collect_snoc hrun, collect_snoc hrun, hsent, hreleased, List.append_nil, List.append_nil,
      ht, ← hs]
    exact h.sent
  slot := hslot
  commands := hcommands

theorem Acked.put (h : Acked nh sn ls s) (hrun : exec step (init nh sn) ls = some s)
    (hheld : Held s) {path : Path} {dt : Int64} {tent : Int} {r : Ring}
    (hforces : ¬ Forces s.ring dt tent) (hput : Misclib.histput path dt tent s.ring = some r)
    (hstep : step s (.histput path dt tent) = some { s with ring := r }) :
    Acked nh sn (ls ++ [.histput path dt tent]) { s with ring := r } := by
  obtain ⟨P, C, hat⟩ := exec_at hrun
  obtain ⟨hcons, hdate⟩ := put_head hat hforces hput
  refine ⟨?_, fun hp hslot => (h.slot hp hslot).trans hcons.symm, h.commands⟩
  have hsent : sentDate s (.histput path dt tent) = [] :=
    sentDate_eq_nil hstep fun opt hp hpc hpc' => by cases hpc.symm.trans hpc'
  have hunacked : ({ s with ring := r } : State).unacked = s.unacked := by
    by_cases hget : s.pc = .histremove .get
    · have hpos : 0 < s.ring.numhist := by
        apply hheld
        rw [hget]
        trivial
      simp only [State.unacked, hget, hcons, hdate hpos]
    · rw [unacked_eq_nil hget]
      exact unacked_eq_nil hget
  rw [collect_snoc hrun, collect_snoc hrun, hsent, hunacked]
  simp only [releasedDate, if_neg hforces, List.append_nil]
  exact h.sent

theorem Acked.reply (h : Acked nh sn ls s) (hrun : exec step (init nh sn) ls = some s)
    {opt : Opt} {hp : Nat} (hpc : s.pc = .serve opt hp) (hring : t.ring = s.ring)
    (hstep : step s l = some t) (hreleased : releasedDate s l = [])
    (ht : t.pc = .exited ∨ t.pc = .histremove .get ∨ t.pc = .accept) :
    Acked nh sn (ls ++ [l]) t := by
  have hs : s.unacked = [] := by simp only [State.unacked, hpc]
  by_cases hget : t.pc = .histremove .get
  · obtain rfl := h.slot hp (by rw [hpc]; rfl)
    have hsent : sentDate s l = [s.ring.date s.ring.conshistp] := by
      unfold sentDate
      rw [hstep, hpc, Option.map_some, hget]
    refine ⟨?_, ?_, ?_⟩
    · rw [collect_snoc hrun, collect_snoc hrun, hsent, hreleased, List.append_nil, h.sent, hs,
        List.append_nil]
      simp only [State.unacked, hget, hring]
    · intro hp hslot
      rw [hget] at hslot
      cases hslot
    · intro cmd hcmd
      rw [hget] at hcmd
      exact .inl (Pc.histremove.inj hcmd).symm
  · have hidle : t.unacked = [] ∧ t.pc.slot = none ∧ ∀ cmd, t.pc ≠ .histremove cmd := by
      rcases ht with hpc' | hpc' | hpc'
      · simp [State.unacked, hpc', Pc.slot]
      · exact absurd hpc' hget
      · simp [State.unacked, hpc', Pc.slot]
    refine h.move hrun (sentDate_eq_nil hstep fun _ _ _ hpc' => hget hpc') hreleased hs hidle.1 ?_ ?_
    · intro hp' hslot
      rw [hidle.2.1] at hslot
      cases hslot
    · exact fun cmd hcmd => absurd hcmd (hidle.2.2 cmd)

theorem Acked.removed (h : Acked nh sn ls s) (hrun : exec step (init nh sn) ls = some s) {cmd : Cmd}
    {r : Ring} (hpc : s.pc = .histremove cmd) (hclose : s.pc.closing .histremove = false)
    (hstep : step s .histremove = some (s.removed cmd r)) :
    Acked nh sn (ls ++ [.histremove]) (s.removed cmd r) := by
  obtain rfl : cmd = .get := by
    rcases h.commands cmd hpc with rfl | rfl
    · rfl
    · rw [hpc] at hclose
      cases hclose
  have hafter := pc_removed s .get r
  refine ⟨?_, ?_, ?_⟩
  · have hsent : sentDate s .histremove = [] :=
      sentDate_eq_nil hstep fun _ _ hpc' _ => by cases hpc.symm.trans hpc'
    rw [collect_snoc hrun, collect_snoc hrun, hsent, h.sent]
    simp only [State.unacked, hpc, hafter, releasedDate, List.append_nil]
  · intro hp hslot
    rw [hafter] at hslot
    cases hslot
  · intro cmd hcmd
    rw [hafter] at hcmd
    cases hcmd

theorem got_slot (s : State) (req : Request) {r : Ring} {res : Ring × Option Nat}
    (hres : Misclib.histget r = some res) :
    (s.got req res).unacked = [] ∧
      (∀ hp, (s.got req res).pc.slot = some hp → hp = (s.got req res).ring.conshistp) ∧
      ∀ cmd, (s.got req res).pc ≠ .histremove cmd := by
  obtain ⟨r', o⟩ := res
  cases o with
  | none => simp [State.got, State.unacked, Pc.slot]
  | some hp =>
    obtain ⟨_, rfl, rfl⟩ := histget_of_pos hres
    simp [State.got, State.unacked, Pc.slot]

theorem test_slot {req : Request} {hp : Nat} (h : s.test req hp = some t) :
    t.unacked = [] ∧ (∀ hp', t.pc.slot = some hp' → hp' = hp) ∧ ∀ cmd, t.pc ≠ .histremove cmd := by
  cases test_cases h <;> simp [State.unacked, Pc.slot]

theorem Acked.step (h : Acked nh sn ls s) (hrun : exec step (init nh sn) ls = some s)
    (hheld : Held s) (hforcing : ¬ Forcing s l) (hclose : s.pc.closing l = false)
    (hstep : Lwatcher.step s l = some t) : Acked nh sn (ls ++ [l]) t := by
  have hmove : ∀ pc, s.pc = pc → pc ≠ .histremove .get → (∀ opt hp, pc ≠ .serve opt hp) →
      releasedDate s l = [] → t.unacked = [] → (∀ hp, t.pc.slot = some hp → hp = t.ring.conshistp) →
      (∀ cmd, t.pc = .histremove cmd → cmd = .get ∨ cmd = .close) → Acked nh sn (ls ++ [l]) t := by
    rintro pc rfl hget hserve hreleased ht
    exact h.move hrun (sentDate_eq_nil hstep fun opt hp hpc _ => hserve opt hp hpc) hreleased
      (unacked_eq_nil hget) ht
  cases step_cases hstep with
  | histput path dt tent r hr => exact h.put hrun hheld hforcing hr hstep
  | accept sock hpc =>
    exact hmove _ hpc (by simp) (by simp) rfl rfl (by simp [Pc.slot]) (by simp)
  | command cmd opt hpc =>
    cases cmd <;>
      exact hmove _ hpc (by simp) (by simp) rfl (by simp [State.dispatch, State.unacked, hpc])
        (by simp [State.dispatch, hpc, Pc.slot]) (by simp [State.dispatch, hpc])
  | histget req res hpc hres =>
    obtain ⟨hnone, hslot, hcommands⟩ := got_slot s req hres
    exact hmove _ hpc (by simp) (by simp) rfl hnone hslot fun cmd hcmd => absurd hcmd (hcommands cmd)
  | histgetWake req res hpc hres =>
    obtain ⟨r, hres⟩ := histget_of_resume hres
    obtain ⟨hnone, hslot, hcommands⟩ := got_slot s req hres
    exact hmove _ hpc (by simp) (by simp) rfl hnone hslot fun cmd hcmd => absurd hcmd (hcommands cmd)
  | test req hp t hpc ht =>
    obtain ⟨hnone, hslot, hcommands⟩ := test_slot ht
    refine hmove _ hpc (by simp) (by simp) rfl hnone ?_ fun cmd hcmd => absurd hcmd (hcommands cmd)
    intro hp' hhp'
    rw [hslot hp' hhp', (ring_test ht).1]
    exact h.slot hp (by rw [hpc]; rfl)
  | histwait req hpc =>
    exact hmove _ hpc (by simp) (by simp) rfl rfl (by simp [Pc.slot]) (by simp)
  | histwaitWake req r hpc hr =>
    exact hmove _ hpc (by simp) (by simp) rfl rfl (by simp [Pc.slot]) (by simp)
  | opened fname fd hpc =>
    exact hmove _ hpc (by simp) (by simp) rfl rfl (by simp [Pc.slot]) (by simp)
  | notOpened fname hpc =>
    exact hmove _ hpc (by simp) (by simp) rfl rfl (by simp [Pc.slot]) (by simp)
  | getReply files heap sent' opt hp t hpc hrep =>
    exact h.reply hrun hpc (ring_reply hrep).1 hstep rfl (pc_reply hrep)
  | histremove cmd r hpc hr => exact h.removed hrun hpc hclose hstep

theorem acked_init : Acked nh sn [] (init nh sn) where
  sent := rfl
  slot := fun hp hslot => by cases hslot
  commands := fun cmd hcmd => by cases hcmd

theorem exec_acked (hforcing : Along Lwatcher.step (fun s l => ¬ Forcing s l) (init nh sn) ls)
    (hclose : Along Lwatcher.step (fun s l => s.pc.closing l = false) (init nh sn) ls)
    (hrun : exec Lwatcher.step (init nh sn) ls = some s) :
    Acked nh sn ls s ∧
      ∃ q : BoundedQueue Nat ((histinit nh .static).nhist - keepFileCount), Booked nh sn ls s q := by
  have hnever : ∀ s l, s.pc.closing l = false → ¬ ClosesEmpty s l := by
    intro s l hl hc
    rw [hc.1] at hl
    cases hl
  induction ls using List.reverseRecOn generalizing s with
  | nil =>
    obtain rfl : init nh sn = s := by simpa using hrun
    exact ⟨acked_init, _, booked_init⟩
  | append_singleton ls l ih =>
    obtain ⟨u, hu, hstep⟩ := exec_snoc_iff.mp hrun
    obtain ⟨hforcing', hf⟩ := (along_snoc_iff hu).mp hforcing
    obtain ⟨hclose', hc⟩ := (along_snoc_iff hu).mp hclose
    obtain ⟨hacked, q, hq⟩ := ih hforcing' hclose' hu
    obtain ⟨op, hop, _⟩ := hq.step hu (hnever u l hc) hstep
    exact ⟨hacked.step hu hq.held hf hc hstep, _, hop⟩

/-- While no removal is forced and the clients only get, every date that was opened is sent by one
reply, or waits for one, in the order of time. -/
theorem each_date_sent_once (hforcing : Along Lwatcher.step (fun s l => ¬ Forcing s l) (init nh sn) ls)
    (hclose : Along Lwatcher.step (fun s l => s.pc.closing l = false) (init nh sn) ls)
    (hrun : exec Lwatcher.step (init nh sn) ls = some s) :
    collect Lwatcher.step openedDate (init nh sn) ls =
      collect Lwatcher.step sentDate (init nh sn) ls ++ s.waiting := by
  obtain ⟨hacked, q, hq⟩ := exec_acked hforcing hclose hrun
  have hdates : s.ring.dates = s.unacked ++ s.waiting := by
    by_cases hget : s.pc = .histremove .get
    · have hpos : 0 < s.ring.numhist := by
        apply hq.held
        rw [hget]
        trivial
      have hhead := hq.refines.head hpos
      rw [← hq.refines.items] at hhead
      simp only [State.unacked, State.waiting, hget]
      cases hd : s.ring.dates with
      | nil => simp [hd] at hhead
      | cons d rest =>
        rw [hd] at hhead
        rw [← Option.some.inj hhead]
        rfl
    · rw [unacked_eq_nil hget, List.nil_append]
      unfold State.waiting
      split
      · exact absurd ‹_› hget
      · rfl
  rw [hq.books, ← hq.refines.items, hdates, hacked.sent, List.append_assoc]

end Acked

/-! A run with two replies; the date 3 comes while the entry of date 1 is being sent. -/

theorem nul_free_a : (0 : UInt8) ∉ [97] := by decide

theorem nul_free_b : (0 : UInt8) ∉ [98] := by decide

theorem nul_free_c : (0 : UInt8) ∉ [99] := by decide

def twoReplies : List Label :=
  [.histput ⟨[97], nul_free_a⟩ 1 0, .histput ⟨[98], nul_free_b⟩ 2 0, .accept 3,
    .command .get ![8, 0, 0], .histget, .test, .histput ⟨[99], nul_free_c⟩ 3 0,
    .getReply ![.content [1], .noOpen, .noOpen] (fun _ => 0) true, .histremove, .accept 3,
    .command .get ![8, 0, 0], .histget, .test,
    .getReply ![.content [2], .noOpen, .noOpen] (fun _ => 0) true]

theorem dates_accounted_two :
    ∃ s, exec step (init 6 1) twoReplies = some s ∧
      collect step openedDate (init 6 1) twoReplies = [1, 2, 3] ∧
      collect step openedDate (init 6 1) twoReplies =
        collect step releasedDate (init 6 1) twoReplies ++ s.ring.dates :=
  ⟨_, rfl, rfl, (@dates_accounted 6 1 twoReplies _ (by decide) rfl).1⟩

theorem sent_dates_in_order_two :
    ∃ s, exec step (init 5 1) twoReplies = some s ∧
      (collect step sentDate (init 5 1) twoReplies).Pairwise (· < ·) ∧
      (collect step sentDate (init 5 1) twoReplies).Sublist
        (collect step openedDate (init 5 1) twoReplies) :=
  ⟨_, rfl, @sent_dates_in_order 5 1 twoReplies _ (by decide) (by decide) rfl⟩

theorem each_date_sent_once_two :
    ∃ s, exec step (init 6 1) twoReplies = some s ∧
      collect step sentDate (init 6 1) twoReplies = [1, 2] ∧
      collect step openedDate (init 6 1) twoReplies =
        collect step sentDate (init 6 1) twoReplies ++ s.waiting :=
  ⟨_, rfl, rfl, @each_date_sent_once 6 1 twoReplies _ (by decide) (by decide) rfl⟩

end JitDt.Lwatcher
