import JitDt.Lockfile.Names

/-!
# URLs of transfer targets

`parse_url` cuts the URL in place behind a scheme, and `trans_type` tries one scheme after the
other. It is used for a lock directory with the output of the remote path in the place of the
host, so that it cuts a path at a colon, and the test for a colon of any kind stands in front of
the scheme `http:`.
-/

namespace JitDt.Translib

set_option autoImplicit false

open Lockfile (cutAt)

def colon : UInt8 := 58

/-- `scp:`, `ssh:`, `sftp:`, `lock:` and `http:`. -/
def scp : List UInt8 := [115, 99, 112, colon]
def ssh : List UInt8 := [115, 115, 104, colon]
def sftp : List UInt8 := [115, 102, 116, 112, colon]
def lock : List UInt8 := [108, 111, 99, 107, colon]
def http : List UInt8 := [104, 116, 116, 112, colon]

def transScp : Int := 0
def transSftp : Int := 1
def transLock : Int := 2
def transHttp : Int := 3
def transUnknown : Int := -1
def transNone : Int := -2

/-- The URL after the call, the position `*host` points to, and that of `*rpath`, unless it is
not set. -/
structure Parsed where
  url : List UInt8
  host : Nat
  rpath : Option Nat

/-- `none` if the URL has another scheme. -/
def parse_url (url proto : List UInt8) : Option Parsed :=
  if proto.isPrefixOf url then
    match cutAt colon url proto.length with
    | some (j, url') => some ⟨url', proto.length, some (proto.length + j + 1)⟩
    | none => some ⟨url, proto.length, none⟩
  else none

/-- What `trans_type` returns, and the pointers it sets. -/
structure Target where
  type : Int
  url : List UInt8
  host : Option Nat
  rpath : Option Nat

def Parsed.target (p : Parsed) (type : Int) : Target := ⟨type, p.url, some p.host, p.rpath⟩

/-- With `HTTP` defined or not. -/
def trans_type (withHttp : Bool) (url : List UInt8) : Target :=
  match parse_url url scp, parse_url url ssh, parse_url url sftp, parse_url url lock with
  | some p, _, _, _ => p.target transScp
  | none, some p, _, _ => p.target transScp
  | none, none, some p, _ => p.target transSftp
  -- the arguments are `rpath` and a null pointer
  | none, none, none, some p => ⟨transLock, p.url, none, some p.host⟩
  | none, none, none, none =>
    if colon ∈ url then ⟨transUnknown, url, none, none⟩
    else
      match if withHttp then parse_url url http else none with
      | some p => p.target transHttp
      | none => ⟨transNone, url, none, none⟩

def Target.text (t : Target) (p : Option Nat) : Option (List UInt8) :=
  p.map fun off => cstrOf (t.url.drop off)

/-- The documented type of a URL. -/
def documentedType (url : List UInt8) : Int :=
  if scp <+: url ∨ ssh <+: url then transScp
  else if sftp <+: url then transSftp
  else if lock <+: url then transLock
  else if http <+: url then transHttp
  else if colon ∈ url then transUnknown
  else transNone

/-- `type`, and for a remote host its name and the path there, for a lock directory its path. -/
structure Classified (url : List UInt8) (t : Target) : Prop where
  type : t.type = documentedType url
  remote : ∀ proto ∈ [scp, ssh, sftp], ∀ text, url = proto ++ text →
    t.text t.host = some (text.take (text.idxOf colon)) ∧
      t.text t.rpath = if colon ∈ text then some (text.drop (text.idxOf colon + 1)) else none
  local_path : ∀ text, url = lock ++ text → t.text t.rpath = some text

/-! ## One scheme -/

section Parse
variable {url proto text : List UInt8}

theorem parse_url_other (h : ¬ proto <+: url) : parse_url url proto = none := by
  unfold parse_url
  rw [if_neg (mt List.isPrefixOf_iff_prefix.mp h)]

theorem cstrOf_of_nul_free (h : (0 : UInt8) ∉ text) : cstrOf text = text := by
  have happ := cstrOf_append (t := []) h
  simpa [cstrOf] using happ

/-- The string at `*host` and the one at `*rpath`. -/
theorem parse_url_text (h : (0 : UInt8) ∉ proto ++ text) :
    ∃ p, parse_url (proto ++ text) proto = some p ∧ p.host = proto.length ∧
      cstrOf (p.url.drop p.host) = text.take (text.idxOf colon) ∧
      p.rpath.map (fun off => cstrOf (p.url.drop off)) =
        if colon ∈ text then some (text.drop (text.idxOf colon + 1)) else none := by
  have htext : (0 : UInt8) ∉ text := fun hmem => h (List.mem_append_right _ hmem)
  have hdrop : cstrOf ((proto ++ text).drop proto.length) = text := by
    rw [List.drop_left, cstrOf_of_nul_free htext]
  unfold parse_url
  rw [if_pos (List.isPrefixOf_iff_prefix.mpr (List.prefix_append proto text))]
  unfold cutAt
  simp only [hdrop]
  by_cases hc : colon ∈ text
  · simp only [if_pos hc]
    refine ⟨_, rfl, rfl, ?_, ?_⟩
    · change cstrOf (((proto ++ text).set (proto.length + text.idxOf colon) 0).drop proto.length) = _
      rw [List.set_append_right _ _ (Nat.le_add_right _ _), Nat.add_sub_cancel_left, List.drop_left,
        cstrOf_set, cstrOf_of_nul_free htext]
    · have hrest : ((proto ++ text).set (proto.length + text.idxOf colon) 0).drop
          (proto.length + text.idxOf colon + 1) = text.drop (text.idxOf colon + 1) := by
        rw [List.drop_set_of_lt (by omega), Nat.add_assoc, ← List.drop_drop, List.drop_left]
      rw [Option.map_some, hrest,
        cstrOf_of_nul_free fun hmem => htext (List.mem_of_mem_drop hmem)]
  · simp only [if_neg hc]
    refine ⟨_, rfl, rfl, ?_, rfl⟩
    change cstrOf ((proto ++ text).drop proto.length) = _
    rw [hdrop, List.idxOf_eq_length hc, List.take_length]

end Parse

/-! ## The schemes -/

/-- No scheme is the beginning of another one. -/
theorem scheme_unique {url p q : List UInt8} (hp : p ∈ [scp, ssh, sftp, lock, http])
    (hq : q ∈ [scp, ssh, sftp, lock, http]) (hpu : p <+: url) (hqu : q <+: url) : p = q := by
  have hall : ∀ p ∈ [scp, ssh, sftp, lock, http], ∀ q ∈ [scp, ssh, sftp, lock, http],
      p <+: q → p = q := by decide
  rcases List.prefix_or_prefix_of_prefix hpu hqu with h | h
  · exact hall p hp q hq h
  · exact (hall q hq p hp h).symm

theorem parse_url_unique {url p q : List UInt8} (hp : p ∈ [scp, ssh, sftp, lock, http])
    (hq : q ∈ [scp, ssh, sftp, lock, http]) (hpu : p <+: url) (hne : p ≠ q) :
    parse_url url q = none :=
  parse_url_other fun hqu => hne (scheme_unique hp hq hpu hqu)

section Types
variable {url text proto : List UInt8} {withHttp : Bool}

theorem trans_type_remote (hproto : proto ∈ [scp, ssh, sftp]) (h : (0 : UInt8) ∉ proto ++ text) :
    ∃ p : Parsed, trans_type withHttp (proto ++ text) =
        p.target (if proto = sftp then transSftp else transScp) ∧
      cstrOf (p.url.drop p.host) = text.take (text.idxOf colon) ∧
      p.rpath.map (fun off => cstrOf (p.url.drop off)) =
        if colon ∈ text then some (text.drop (text.idxOf colon + 1)) else none := by
  obtain ⟨p, hp, _, hhost, hrpath⟩ := parse_url_text h
  refine ⟨p, ?_, hhost, hrpath⟩
  have hpre := List.prefix_append proto text
  unfold trans_type
  rcases List.mem_cons.mp hproto with rfl | hproto
  · rw [hp]
    rfl
  rcases List.mem_cons.mp hproto with rfl | hproto
  · rw [parse_url_unique (by decide) (by decide : scp ∈ _) hpre (by decide), hp]
    rfl
  · obtain rfl := List.mem_singleton.mp hproto
    rw [parse_url_unique (by decide) (by decide : scp ∈ _) hpre (by decide),
      parse_url_unique (by decide) (by decide : ssh ∈ _) hpre (by decide), hp]
    rfl

theorem trans_type_lock (h : (0 : UInt8) ∉ lock ++ text) :
    (trans_type withHttp (lock ++ text)).type = transLock ∧
      (trans_type withHttp (lock ++ text)).text (trans_type withHttp (lock ++ text)).rpath =
        some (text.take (text.idxOf colon)) := by
  obtain ⟨p, hp, _, hhost, _⟩ := parse_url_text h
  have hpre := List.prefix_append lock text
  have hres : trans_type withHttp (lock ++ text) = ⟨transLock, p.url, none, some p.host⟩ := by
    unfold trans_type
    rw [parse_url_unique (by decide) (by decide : scp ∈ _) hpre (by decide),
      parse_url_unique (by decide) (by decide : ssh ∈ _) hpre (by decide),
      parse_url_unique (by decide) (by decide : sftp ∈ _) hpre (by decide), hp]
  rw [hres]
  exact ⟨rfl, congrArg some hhost⟩

/-- The scheme `http:` is not looked for in a URL with a colon. -/
theorem trans_type_other (h : ∀ proto ∈ [scp, ssh, sftp, lock], ¬ proto <+: url) :
    (trans_type withHttp url).type = if colon ∈ url then transUnknown else transNone := by
  unfold trans_type
  rw [parse_url_other (h scp (by decide)), parse_url_other (h ssh (by decide)),
    parse_url_other (h sftp (by decide)), parse_url_other (h lock (by decide))]
  simp only
  split
  · rfl
  · rename_i hcolon
    have hhttp : parse_url url http = none := by
      apply parse_url_other
      rintro ⟨text, rfl⟩
      exact hcolon (List.mem_append_left _ (by decide))
    rw [hhttp]
    cases withHttp <;> rfl

end Types

theorem documentedType_remote {proto : List UInt8} (text : List UInt8)
    (hproto : proto ∈ [scp, ssh, sftp]) :
    documentedType (proto ++ text) = if proto = sftp then transSftp else transScp := by
  have hpre := List.prefix_append proto text
  unfold documentedType
  rcases List.mem_cons.mp hproto with rfl | hproto
  · exact if_pos (Or.inl hpre)
  rcases List.mem_cons.mp hproto with rfl | hproto
  · exact if_pos (Or.inr hpre)
  · obtain rfl := List.mem_singleton.mp hproto
    rw [if_neg, if_pos hpre]
    · rfl
    · rintro (h | h)
      · exact absurd (scheme_unique (by decide) (by decide) h hpre) (by decide)
      · exact absurd (scheme_unique (by decide) (by decide) h hpre) (by decide)

theorem documentedType_local {proto : List UInt8} (text : List UInt8)
    (hproto : proto ∈ [lock, http]) :
    documentedType (proto ++ text) = if proto = lock then transLock else transHttp := by
  have hpre := List.prefix_append proto text
  have hnot : ∀ q ∈ [scp, ssh, sftp], ¬ q <+: proto ++ text := by
    intro q hq h
    have hne : ∀ q ∈ [scp, ssh, sftp], ∀ p ∈ [lock, http], q ≠ p := by decide
    have hq' : ∀ q ∈ [scp, ssh, sftp], q ∈ [scp, ssh, sftp, lock, http] := by decide
    have hp' : ∀ p ∈ [lock, http], p ∈ [scp, ssh, sftp, lock, http] := by decide
    exact hne q hq proto hproto (scheme_unique (hq' q hq) (hp' proto hproto) h hpre)
  unfold documentedType
  rw [if_neg (not_or.mpr ⟨hnot scp (by decide), hnot ssh (by decide)⟩),
    if_neg (hnot sftp (by decide))]
  rcases List.mem_cons.mp hproto with rfl | hproto
  · exact if_pos hpre
  · obtain rfl := List.mem_singleton.mp hproto
    rw [if_neg, if_pos hpre]
    · rfl
    · intro h
      exact absurd (scheme_unique (by decide) (by decide) h hpre) (by decide)

theorem classified_remote {proto text : List UInt8} (hproto : proto ∈ [scp, ssh, sftp])
    (h : (0 : UInt8) ∉ proto ++ text) :
    Classified (proto ++ text) (trans_type true (proto ++ text)) := by
  obtain ⟨p, hp, hhost, hrpath⟩ := @trans_type_remote _ _ true hproto h
  have hall : ∀ q ∈ [scp, ssh, sftp], q ∈ [scp, ssh, sftp, lock, http] := by decide
  have hpre := List.prefix_append proto text
  rw [hp]
  refine ⟨(documentedType_remote text hproto).symm, ?_, ?_⟩
  · intro q hq text' htext
    obtain rfl := scheme_unique (hall proto hproto) (hall q hq) hpre ⟨text', htext.symm⟩
    obtain rfl := List.append_cancel_left htext
    exact ⟨congrArg some hhost, hrpath⟩
  · intro text' htext
    have heq := scheme_unique (hall proto hproto) (by decide) hpre ⟨text', htext.symm⟩
    rw [heq] at hproto
    exact absurd hproto (by decide)

theorem classified_lock_iff {text : List UInt8} (h : (0 : UInt8) ∉ lock ++ text) :
    Classified (lock ++ text) (trans_type true (lock ++ text)) ↔ colon ∉ text := by
  obtain ⟨htype, hrpath⟩ := @trans_type_lock _ true h
  have hpre := List.prefix_append lock text
  constructor
  · intro hcl hmem
    -- the path set is too short by the colon and what follows
    have hall := Option.some.inj (hrpath.symm.trans (hcl.local_path text rfl))
    have hlen := congrArg List.length hall
    have hlt := List.idxOf_lt_length_of_mem hmem
    rw [List.length_take] at hlen
    omega
  · intro hno
    have hdoc : documentedType (lock ++ text) = transLock := documentedType_local text (by decide)
    refine ⟨htype.trans hdoc.symm, ?_, ?_⟩
    · intro q hq text' htext
      have hall : ∀ q ∈ [scp, ssh, sftp], q ∈ [scp, ssh, sftp, lock, http] := by decide
      have heq := scheme_unique (hall q hq) (by decide : lock ∈ _) ⟨text', htext.symm⟩ hpre
      rw [heq] at hq
      exact absurd hq (by decide)
    · intro text' htext
      obtain rfl := List.append_cancel_left htext
      rw [hrpath, List.idxOf_eq_length hno, List.take_length]

theorem not_classified_http (text : List UInt8) :
    ¬ Classified (http ++ text) (trans_type true (http ++ text)) := by
  intro hcl
  have hpre := List.prefix_append http text
  have hnot : ∀ proto ∈ [scp, ssh, sftp, lock], ¬ proto <+: http ++ text := by
    intro q hq h
    have hne : ∀ q ∈ [scp, ssh, sftp, lock], q ≠ http := by decide
    have hall : ∀ q ∈ [scp, ssh, sftp, lock], q ∈ [scp, ssh, sftp, lock, http] := by decide
    exact hne q hq (scheme_unique (hall q hq) (by decide) h hpre)
  have htype := hcl.type
  rw [trans_type_other hnot, if_pos (List.mem_append_left _ (by decide)),
    documentedType_local text (by decide)] at htype
  exact absurd htype (by decide)

theorem classified_other {url : List UInt8}
    (h : ∀ proto ∈ [scp, ssh, sftp, lock, http], ¬ proto <+: url) :
    Classified url (trans_type true url) := by
  have hsub : ∀ q ∈ [scp, ssh, sftp, lock], q ∈ [scp, ssh, sftp, lock, http] := by decide
  refine ⟨?_, ?_, ?_⟩
  · rw [trans_type_other fun q hq => h q (hsub q hq)]
    unfold documentedType
    rw [if_neg (not_or.mpr ⟨h scp (by decide), h ssh (by decide)⟩), if_neg (h sftp (by decide)),
      if_neg (h lock (by decide)), if_neg (h http (by decide))]
  · intro q hq text htext
    have hall : ∀ q ∈ [scp, ssh, sftp], q ∈ [scp, ssh, sftp, lock, http] := by decide
    exact absurd ⟨text, htext.symm⟩ (h q (hall q hq))
  · intro text htext
    exact absurd ⟨text, htext.symm⟩ (h lock (by decide))

/-- A URL is classified as documented exactly if its scheme is not `http:` and no colon is in
the path of a lock directory. -/
theorem classified_iff (url : CStr) : Classified url.bytes (trans_type true url.bytes) ↔
    ¬ http <+: url.bytes ∧ ∀ text, url.bytes = lock ++ text → colon ∉ text := by
  obtain ⟨url, hnul⟩ := url
  simp only
  by_cases hhttp : http <+: url
  · obtain ⟨text, rfl⟩ := hhttp
    exact iff_of_false (not_classified_http text) fun h => h.1 (List.prefix_append http text)
  by_cases hlock : lock <+: url
  · obtain ⟨text, rfl⟩ := hlock
    rw [classified_lock_iff hnul]
    constructor
    · intro h
      refine ⟨hhttp, fun text' htext => ?_⟩
      obtain rfl := List.append_cancel_left htext
      exact h
    · exact fun h => h.2 text rfl
  have hright : ¬ http <+: url ∧ ∀ text, url = lock ++ text → colon ∉ text :=
    ⟨hhttp, fun text htext => absurd ⟨text, htext.symm⟩ hlock⟩
  refine iff_of_true ?_ hright
  by_cases hremote : ∃ proto ∈ [scp, ssh, sftp], proto <+: url
  · obtain ⟨proto, hproto, text, rfl⟩ := hremote
    exact classified_remote hproto hnul
  · apply classified_other
    intro proto hproto hpre
    have hsplit : ∀ p ∈ [scp, ssh, sftp, lock, http], p ∈ [scp, ssh, sftp] ∨ p = lock ∨ p = http := by
      decide
    rcases hsplit proto hproto with hp | rfl | rfl
    · exact hremote ⟨proto, hp, hpre⟩
    · exact hlock hpre
    · exact hhttp hpre

/-- The documented `http://h` is an unknown method, and the directory of `lock:/a:b` is cut at
the colon. -/
theorem http_unknown :
    documentedType (http ++ [47, 47, 104]) = transHttp ∧
    (trans_type true (http ++ [47, 47, 104])).type = transUnknown ∧
    ¬ Classified (http ++ [47, 47, 104]) (trans_type true (http ++ [47, 47, 104])) ∧
    (trans_type true (lock ++ [47, 97, colon, 98])).text
      (trans_type true (lock ++ [47, 97, colon, 98])).rpath = some [47, 97] ∧
    ¬ Classified (lock ++ [47, 97, colon, 98]) (trans_type true (lock ++ [47, 97, colon, 98])) := by
  refine ⟨by decide, by decide, not_classified_http _, by decide, fun h => ?_⟩
  have hpath := h.local_path _ rfl
  exact absurd hpath (by decide)

end JitDt.Translib
