import JitDt.Lwatcher.Independence
import JitDt.Lwatcher.RoundTrip
import JitDt.Lwatcher.Stability
import JitDt.Misclib.HistoryFiles

/-!
# What a client gets

The way of a set through lwatcher as a whole: the files that the watcher registers, the entry that
the transfer thread finds complete and sends while more files come, and the regions that `_jitget`
fills from the stream.
-/

namespace JitDt.Lwatcher

set_option autoImplicit false

open Misclib Jitcclient Machine

/-! ## The files of a slot -/

/-- Every file stands under the date and the type with which it was put. -/
def FiledUnder (ls : List Label) (s : State) : Prop :=
  ∀ i t p, (s.ring.history i).fname t = some p →
    ∃ dt, .histput p dt (t.val : Int) ∈ ls ∧ ull dt = s.ring.date i

/-- The slot that a new date takes over holds no file of another type. -/
def CleanPut (s : State) : Label → Prop
  | .histput path dt tent => CleanReuse s.ring (.put path dt tent)
  | _ => True

instance (s : State) : ∀ l : Label, Decidable (CleanPut s l)
  | .histput path dt tent => inferInstanceAs (Decidable (CleanReuse s.ring (.put path dt tent)))
  | .accept _ => isTrue trivial
  | .command _ _ => isTrue trivial
  | .histget => isTrue trivial
  | .histgetWake => isTrue trivial
  | .test => isTrue trivial
  | .histwait => isTrue trivial
  | .histwaitWake => isTrue trivial
  | .openReply _ => isTrue trivial
  | .getReply _ _ _ => isTrue trivial
  | .histremove => isTrue trivial

section Files
variable {r r' : Ring} {i j : Nat} {t u : Fin fnameMax} {p path : Path} {dt : Int64} {tent : Int}

/-- A file found after a store is the new one in its place, or was there before. -/
theorem fname_store_cases (h : ((r.store i t path).history j).fname u = some p) :
    (j = i ∧ u = t ∧ p = path) ∨ (r.history j).fname u = some p := by
  by_cases hj : j = i
  · subst hj
    by_cases hu : u = t
    · subst hu
      refine .inl ⟨rfl, rfl, ?_⟩
      simpa [Ring.store, Ring.withEntry, eq_comm] using h
    · exact .inr (by simpa [Ring.store, Ring.withEntry, hu] using h)
  · exact .inr (by simpa [Ring.store, Ring.withEntry, hj] using h)

/-- A file in the ring after a `histput` was put now under its date and type, or stood there before
under the same date. -/
theorem histput_origin (hclean : CleanReuse r (.put path dt tent))
    (hput : Misclib.histput path dt tent r = some r') (h : (r'.history j).fname u = some p) :
    (p = path ∧ tent = u.val ∧ ull dt = r'.date j) ∨
      ((r.history j).fname u = some p ∧ r'.date j = r.date j) := by
  have hstored : ∀ {i : Nat} {t : Fin fnameMax}, tent = t.val → ull dt = r.date i →
      ((r.store i t path).signal.history j).fname u = some p →
      (p = path ∧ tent = u.val ∧ ull dt = (r.store i t path).signal.date j) ∨
        ((r.history j).fname u = some p ∧ (r.store i t path).signal.date j = r.date j) := by
    intro i t ht hd hfile
    rcases fname_store_cases hfile with ⟨rfl, rfl, rfl⟩ | hold
    · exact .inl ⟨rfl, ht, hd.trans (date_store r _ _ u p).symm⟩
    · exact .inr ⟨hold, date_store r i j t path⟩
  cases histput_cases hput with
  | refused _ h' =>
    subst h'
    exact .inr ⟨h, rfl⟩
  | same t ht _ hd h' =>
    subst h'
    exact hstored ht hd h
  | late t ht i _ _ hd _ h' =>
    subst h'
    exact hstored ht hd h
  | lost _ _ _ h' =>
    subst h'
    exact .inr ⟨h, rfl⟩
  | new t ht _ hd _ h' =>
    subst h'
    have hrange : ¬(tent < 0 ∨ tent > (fnameMax : Int)) := by
      have := t.isLt
      omega
    by_cases hj : j = nextEntry r
    · subst hj
      by_cases hu : u = t
      · subst hu
        refine .inl ⟨?_, ht, (date_opened_self r (ull dt) u path).symm⟩
        have hfile : some path = some p := by
          simpa [Ring.opened, Ring.withEntry, Ring.signal] using h
        exact (Option.some.inj hfile).symm
      · -- a file of another type, left in the slot
        have hold : (r.history (nextEntry r)).fname u = some p := by
          apply fname_of_roomy
          simpa [Ring.opened, Ring.withEntry, Ring.signal, hu] using h
        have hnone := hclean hrange hd u (by rw [ht]; exact fun heq => hu (Fin.ext (by omega)))
        rw [hold] at hnone
        cases hnone
    · rcases fname_of_opened (r := r) h with ⟨heq, _⟩ | ⟨hold, _⟩
      · exact absurd heq hj
      · exact .inr ⟨hold, date_opened_other hj⟩

end Files

section Runs
variable {nh : Int} {sn : Nat} {ls : List Label} {s t : State} {l : Label}

theorem FiledUnder.step (h : FiledUnder ls s) (hclean : CleanPut s l)
    (hstep : Lwatcher.step s l = some t) : FiledUnder (ls ++ [l]) t := by
  have hkeep : ∀ {i u p d}, (∃ dt, .histput p dt ((u : Fin fnameMax).val : Int) ∈ ls ∧ ull dt = d) →
      d = t.ring.date i → ∃ dt, .histput p dt (u.val : Int) ∈ ls ++ [l] ∧ ull dt = t.ring.date i := by
    rintro i u p d ⟨dt, hmem, hdt⟩ hd
    exact ⟨dt, List.mem_append_left _ hmem, hdt.trans hd⟩
  intro i u p hfile
  cases step_effect hstep with
  | histput path dt tent hl hput _ _ =>
    subst hl
    rcases histput_origin hclean hput hfile with ⟨rfl, rfl, hd⟩ | ⟨hold, hd⟩
    · exact ⟨dt, by simp, hd⟩
    · exact hkeep (h i u p hold) hd.symm
  | histremove _ hrem _ =>
    rw [(histremove_iff.mp hrem).2.2] at hfile hkeep ⊢
    exact hkeep (h i u p (fname_of_removed hfile)) (date_removed _ i).symm
  | getReply _ _ _ _ _ _ _ hr _ =>
    rw [hr] at hfile hkeep ⊢
    exact hkeep (h i u p hfile) rfl
  | quiet _ _ _ hsame _ =>
    rw [hsame.history] at hfile
    refine hkeep (h i u p hfile) ?_
    rw [Ring.date, Ring.date, hsame.history]

theorem exec_filedUnder (hclean : Along step CleanPut (init nh sn) ls)
    (hrun : exec step (init nh sn) ls = some s) : FiledUnder ls s := by
  induction ls using List.reverseRecOn generalizing s with
  | nil =>
    obtain rfl : init nh sn = s := by simpa using hrun
    intro i u p hfile
    cases hfile
  | append_singleton ls l ih =>
    obtain ⟨v, hv, hstep⟩ := exec_snoc_iff.mp hrun
    obtain ⟨hbefore, hl⟩ := (along_snoc_iff hv).mp hclean
    exact (ih hbefore hv).step hl hstep

/-! ## The entry is complete when it is sent -/

theorem arrived_stable {r r' : Ring} {hp n : Nat} (hs : Stable r r' hp)
    (h : arrived n (r.history hp) = some true) : arrived n (r'.history hp) = some true := by
  obtain ⟨hle, hall⟩ := arrived_true h
  refine arrivedFrom_of_present (by omega) ?_
  intro j _ hj
  obtain ⟨p, hp⟩ := Option.ne_none_iff_exists'.mp (hall j (by omega))
  obtain ⟨q, hq⟩ := hs.kept j p hp
  rw [hq]
  simp

/-- The step of a window with fewer than `keepFileCount` forced removals. -/
theorem Sent.stable {hp d C f P : Nat} (h : Sent hp d C f s.ring P) (hl : l.InWindow)
    (hf : f + (if Forcing s l then 1 else 0) < keepFileCount) (hstep : Lwatcher.step s l = some t) :
    Stable s.ring t.ring hp := by
  cases step_effect hstep with
  | histput path dt tent hl' hput _ _ =>
    subst hl'
    refine h.put_stable hput ?_
    unfold keepFileCount at hf
    by_cases hforces : Forces s.ring dt tent
    · rw [if_pos (show Forcing s (.histput path dt tent) from hforces)] at hf
      rw [if_pos hforces]
      omega
    · rw [if_neg hforces]
      omega
  | histremove hl' _ _ =>
    subst hl'
    exact hl.elim
  | getReply _ _ _ _ _ _ _ hr _ => exact .of_history (by rw [hr])
  | quiet _ _ _ hsame _ => exact .of_history (by rw [hsame.history])

theorem serve_arrived {pre mid : List Label} {s s₁ s₂ : State} {l : Label} {req : Request}
    {opt : Opt} {hp : Nat} (hpre : exec step (init nh sn) pre = some s) (hget : Handed s l s₁ req hp)
    (hmid : exec step s₁ mid = some s₂) (hwin : ∀ l ∈ mid, l.InWindow)
    (hforced : countAlong step Forcing s₁ mid < keepFileCount) (hserve : s₂.pc = .serve opt hp) :
    arrived s₂.nsize (s₂.ring.history hp) = some true := by
  induction mid using List.reverseRecOn generalizing s₂ with
  | nil =>
    obtain rfl : s₁ = s₂ := by simpa using hmid
    cases hget.pc.symm.trans hserve
  | append_singleton mid l' ih =>
    obtain ⟨u, hu, hstep⟩ := exec_snoc_iff.mp hmid
    have hbefore : ∀ l ∈ mid, l.InWindow := fun l hl => hwin l (List.mem_append_left _ hl)
    obtain ⟨C, P, hS⟩ := hget.run hpre hu hbefore
    rw [countAlong_snoc hu] at hforced
    obtain ⟨hn, hpc⟩ := serve_of_step hstep hserve
    rw [hn]
    refine arrived_stable (hS.stable (hwin l' (by simp)) hforced hstep) ?_
    rcases hpc with hpc | harr
    · exact ih hu hbefore (Nat.lt_of_le_of_lt (Nat.le_add_right _ _) hforced) hpc
    · exact harr

end Runs

/-! ## Over the wire -/

/-- What stands under the paths of an entry. -/
def contentOf (disk : Path → List UInt8) (h : HistData) (i : Fin transoptSize) : List UInt8 :=
  ((h.fname i).map disk).getD []

/-- The reply to a request for a whole set fills the client's regions. -/
theorem Sendable.received {n fuel : Nat} {h : HistData} {size : Nat → Int32}
    (hS : Sendable n h size) (hfuel : 2 ^ 31 < fuel) (content : Fin transoptSize → List UInt8)
    {heap : Memory} {rep : GetReply}
    (hserve : serveGet n h (request .get size n).opt (filesOf content) heap = some (n, some rep))
    (data : Memory) (junk : Opt) (pad : Padding) (rest : List UInt8)
    (reqOut repOut repIn : Nat → Nat) (e : Ending) :
    ∃ snk res out inp,
      trans_replyget fuel ⟨[], repOut, none⟩ rep.date rep.tmpstr rep.cp rep.totsz rep.retval junk
        pad = some (rep.totsz, snk) ∧
      _jitget fuel data size n ⟨[], reqOut, none⟩ ⟨snk.sent ++ rest, repIn, e⟩ =
        some (res, out, inp) ∧
      res.ret = 0 ∧
      ∀ i : Fin transoptSize, i.val < n →
        res.data.read (offset size i.val) (res.size i.val).toInt.toNat =
          (content i).take (size i.val).toInt.toNat := by
  obtain ⟨rep', hserve', htot, hpayload, hretval⟩ := hS.serve content heap
  obtain rfl : rep = rep' := by
    rw [hserve] at hserve'
    exact Option.some.inj (Prod.mk.inj (Option.some.inj hserve')).2
  have hpay : ((payloadUpTo (request .get size n).opt (filesOf content) n).length : Int) ≤
      offset size n := payloadUpTo_length_le hS.le fun i hi => hS.chunk_le hi
  have hsum := hS.sum
  have hsmall : tcmdSize < fuel := by
    unfold tcmdSize
    omega
  have hlen : rep.totsz.toNat < fuel := by omega
  obtain ⟨snk, hreply, hsent⟩ := replyget_sends hsmall hlen (by omega) rep.date rep.tmpstr rep.cp
    rep.retval junk pad repOut
  have hA : Announced size
      (replyHeader rep.date rep.tmpstr (Int32.ofInt rep.totsz) rep.retval junk).opt
      (chunk (request .get size n).opt (filesOf content)) n := by
    refine ⟨hS.le, hS.asks, hS.sum, fun i hi => ?_, fun i hi => hS.chunk_le hi⟩
    simp only [replyHeader, hretval i hi, Option.getD_some]
    exact toInt_ofNat_chunk _ _ i
  obtain ⟨res, out, inp, hget, _, hret, _, hregion, _⟩ :=
    jitget_receives hfuel hA pad data rest reqOut repIn e
  refine ⟨snk, res, out, inp, hreply, ?_, hret, fun i hi => ?_⟩
  · have hbuf : rep.cp.read 0 rep.totsz.toNat =
        payloadFrom (chunk (request .get size n).opt (filesOf content)) n 0 := hpayload
    rw [hsent, List.append_assoc, hbuf]
    exact hget
  · obtain ⟨hsize, hdata⟩ := hregion i hi
    rw [hsize, hA.opt i hi, Int.toNat_natCast, hdata]
    exact hS.chunk_eq content hi

/-- A request for a whole set that was handed the entry `hp`, has found it complete and is about to
be answered, fewer than `keepFileCount` removals having been forced since. -/
structure Served (nh : Int) (sn : Nat) (pre mid : List Label) (s s₁ s₂ : State) (l : Label)
    (size : Nat → Int32) (hp : Nat) : Prop where
  reached : exec step (init nh sn) pre = some s
  handed : Handed s l s₁ (.get (request .get size s₂.nsize).opt) hp
  continued : exec step s₁ mid = some s₂
  window : ∀ l ∈ mid, l.InWindow
  serve : s₂.pc = .serve (request .get size s₂.nsize).opt hp
  forced : countAlong step Forcing s₁ mid < keepFileCount
  pos : 0 < s₂.nsize
  asks : ∀ i < s₂.nsize, 0 < (size i).toInt
  sum : offset size s₂.nsize < 2 ^ 31
  names : (namesUpTo (s₂.ring.history hp) s₂.nsize).length < scmdStrsiz

section Served
variable {nh : Int} {sn fuel : Nat} {pre mid : List Label} {s s₁ s₂ : State} {l : Label}
variable {size : Nat → Int32} {hp : Nat}

theorem Served.run (h : Served nh sn pre mid s s₁ s₂ l size hp) :
    exec step (init nh sn) (pre ++ l :: mid) = some s₂ :=
  exec_append_iff.mpr ⟨s, h.reached, exec_cons_iff.mpr ⟨s₁, h.handed.taken, h.continued⟩⟩

theorem Served.sendable (h : Served nh sn pre mid s s₁ s₂ l size hp) :
    Sendable s₂.nsize (s₂.ring.history hp) size := by
  obtain ⟨hle, hsync⟩ :=
    arrived_true (serve_arrived h.reached h.handed h.continued h.window h.forced h.serve)
  exact ⟨h.pos, hle, hsync, h.names, h.asks, h.sum⟩

/-- The reply goes out, and the client has the files of the entry in its regions. -/
theorem Served.received (h : Served nh sn pre mid s s₁ s₂ l size hp) (hfuel : 2 ^ 31 < fuel)
    (disk : Path → List UInt8) (heap data : Memory) (junk : Opt) (pad : Padding)
    (rest : List UInt8) (reqOut repOut repIn : Nat → Nat) (e : Ending) :
    ∃ s₃ rep snk res out inp,
      step s₂ (.getReply (filesOf (contentOf disk (s₂.ring.history hp))) heap true) = some s₃ ∧
      s₃.pc = .histremove .get ∧
      serveGet s₂.nsize (s₂.ring.history hp) (request .get size s₂.nsize).opt
        (filesOf (contentOf disk (s₂.ring.history hp))) heap = some (s₂.nsize, some rep) ∧
      trans_replyget fuel ⟨[], repOut, none⟩ rep.date rep.tmpstr rep.cp rep.totsz rep.retval junk
        pad = some (rep.totsz, snk) ∧
      _jitget fuel data size s₂.nsize ⟨[], reqOut, none⟩ ⟨snk.sent ++ rest, repIn, e⟩ =
        some (res, out, inp) ∧
      res.ret = 0 ∧
      ∀ i : Fin transoptSize, i.val < s₂.nsize → ∃ path,
        (s₂.ring.history hp).fname i = some path ∧
        res.data.read (offset size i.val) (res.size i.val).toInt.toNat =
          (disk path).take (size i.val).toInt.toNat := by
  have hS := h.sendable
  obtain ⟨rep, hrep, _⟩ := hS.serve (contentOf disk (s₂.ring.history hp)) heap
  obtain ⟨snk, res, out, inp, hreply, hjitget, hret, hregion⟩ :=
    hS.received hfuel _ hrep data junk pad rest reqOut repOut repIn e
  refine ⟨{ s₂ with pc := .histremove .get }, rep, snk, res, out, inp, ?_, rfl, hrep, hreply,
    hjitget, hret, fun i hi => ?_⟩
  · simp [step, h.serve, State.reply, hrep]
  · obtain ⟨p, hp'⟩ := Option.ne_none_iff_exists'.mp (hS.sync i hi)
    refine ⟨p, hp', ?_⟩
    rw [hregion i hi, contentOf, hp']
    rfl

end Served

/-- Two files of date 1, which the client asks for, and one of date 2, which comes while the set is
being sent. -/
def twoDates : List Label :=
  [.histput (letter 0) 1 0, .histput (letter 1) 1 1, .accept 3,
    .command .get (request .get (fun _ => 4) (2 : Nat)).opt, .histget, .test,
    .histput (letter 2) 2 0]

end JitDt.Lwatcher
