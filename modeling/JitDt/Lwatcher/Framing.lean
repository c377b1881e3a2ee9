import JitDt.Lwatcher.Get

/-!
# Framing of a GET reply

The header of a reply describes the payload that follows exactly when every file
the client asked for was found, opened and read. `Packed` is the invariant of the
packing loop as long as that is so.
-/

namespace JitDt.Lwatcher

set_option autoImplicit false

open Misclib Jitcclient

/-- The header tells the client of every entry how many bytes follow. -/
structure Framed (r : GetReply) (ent : Nat) : Prop where
  assigned : ∀ i : Fin transoptSize, i.val < ent → ∃ v, r.retval i = some v ∧ 0 ≤ v
  total : (((List.finRange transoptSize).take ent).map fun i =>
    ((r.retval i).getD 0).toInt).sum = r.totsz

/-- File `i` of the entry is there and is read. -/
def Good (h : HistData) (opt : Opt) (files : Fin transoptSize → FileRead) (i : Fin transoptSize) :
    Prop :=
  ∃ path bytes, h.fname i = some path ∧ (files i).read (opt i) = some bytes

def chunk (opt : Opt) (files : Fin transoptSize → FileRead) (i : Fin transoptSize) : List UInt8 :=
  ((files i).read (opt i)).getD []

def payloadUpTo (opt : Opt) (files : Fin transoptSize → FileRead) (n : Nat) : List UInt8 :=
  ((List.finRange transoptSize).take n).flatMap (chunk opt files)

def namesUpTo (h : HistData) (n : Nat) : List UInt8 :=
  ((List.finRange transoptSize).take n).flatMap fun i =>
    match h.fname i with
    | some path => path.bytes ++ ftstrSeparator
    | none => []

structure Packed (h : HistData) (opt : Opt) (files : Fin transoptSize → FileRead) (i : Nat)
    (p : Pack) : Prop where
  tmpstr : p.tmpstr = namesUpTo h i
  totsz : p.totsz = (payloadUpTo opt files i).length
  cp : p.cp.read 0 (payloadUpTo opt files i).length = payloadUpTo opt files i
  retval : ∀ j : Fin transoptSize,
    p.retval j = if j.val < i then some (Int32.ofNat (chunk opt files j).length) else none

theorem take_finRange_succ {i : Nat} (hi : i < transoptSize) :
    (List.finRange transoptSize).take (i + 1) = (List.finRange transoptSize).take i ++ [⟨i, hi⟩] := by
  rw [List.take_add_one]
  congr 1
  simp [hi]

theorem strcat_eq_some {dst src s : List UInt8} (h : strcat dst src = some s) : s = dst ++ src := by
  unfold strcat at h
  split at h
  · exact (Option.some.inj h).symm
  · cases h

theorem read_length_le {file : FileRead} {o : Int32} {bytes : List UInt8}
    (h : file.read o = some bytes) : 0 ≤ o ∧ bytes.length ≤ o.toInt.toNat := by
  cases file with
  | content b =>
    by_cases hneg : o < 0
    · simp [FileRead.read, hneg] at h
    · simp only [FileRead.read, if_neg hneg, Option.some.injEq] at h
      rw [← h]
      exact ⟨Int32.not_lt.mp hneg, by simp⟩
  | noOpen => cases h
  | noRead => cases h

theorem chunk_length_lt (opt : Opt) (files : Fin transoptSize → FileRead) (i : Fin transoptSize) :
    (chunk opt files i).length < 2 ^ 31 := by
  unfold chunk
  cases hr : (files i).read (opt i) with
  | none => simp
  | some bytes =>
    have h := (read_length_le hr).2
    have hlt := (opt i).toInt_lt
    simp only [Option.getD_some]
    omega

theorem toInt_ofNat_chunk (opt : Opt) (files : Fin transoptSize → FileRead)
    (i : Fin transoptSize) :
    (Int32.ofNat (chunk opt files i).length).toInt = (chunk opt files i).length :=
  Int32.toInt_ofNat_of_lt (chunk_length_lt opt files i)

section Loop
variable {h : HistData} {opt : Opt} {files : Fin transoptSize → FileRead} {alloc : Nat}
variable {p q : Pack} {i k : Nat}

theorem packed_start (heap : Memory) : Packed h opt files 0 (.start heap) where
  tmpstr := rfl
  totsz := rfl
  cp := rfl
  retval := fun _ => rfl

theorem packFile_cases {j : Fin transoptSize} {path : Path} {file : FileRead}
    (hp : packFile alloc opt j path file p = some q) :
    (file = .noOpen ∧ q = p) ∨
    (file.read (opt j) = none ∧ q.retval = Function.update p.retval j (some (-1))) ∨
    (∃ bytes, file.read (opt j) = some bytes ∧ q.tmpstr = p.tmpstr ++ path.bytes ++ ftstrSeparator ∧
      q.cp = p.cp.write p.totsz bytes ∧ q.totsz = p.totsz + bytes.length ∧
      q.retval = Function.update p.retval j (some (Int32.ofNat bytes.length))) := by
  unfold packFile at hp
  split at hp
  · exact Or.inl ⟨rfl, (Option.some.inj hp).symm⟩
  refine Or.inr ?_
  obtain ⟨name, hname, hp⟩ := Option.bind_eq_some_iff.mp hp
  obtain ⟨tmpstr, htmp, hp⟩ := Option.bind_eq_some_iff.mp hp
  obtain rfl := strcat_eq_some hname
  obtain rfl := strcat_eq_some htmp
  split at hp
  · rename_i hread
    refine Or.inl ⟨hread, ?_⟩
    rw [← Option.some.inj hp]
  · rename_i bytes hread
    obtain ⟨cp, hfill, hp⟩ := Option.bind_eq_some_iff.mp hp
    unfold Pack.fill at hfill
    split at hfill
    · refine Or.inr ⟨bytes, hread, ?_⟩
      rw [← Option.some.inj hp, ← Option.some.inj hfill]
      exact ⟨rfl, rfl, rfl, rfl⟩
    · cases hfill

theorem Packed.step (hP : Packed h opt files i p) (hi : i < transoptSize) {path : Path}
    {bytes : List UInt8} (hname : h.fname ⟨i, hi⟩ = some path)
    (hread : (files ⟨i, hi⟩).read (opt ⟨i, hi⟩) = some bytes)
    (hp : packFile alloc opt ⟨i, hi⟩ path (files ⟨i, hi⟩) p = some q) :
    Packed h opt files (i + 1) q := by
  have hchunk : chunk opt files ⟨i, hi⟩ = bytes := by simp [chunk, hread]
  have hpay : payloadUpTo opt files (i + 1) = payloadUpTo opt files i ++ bytes := by
    simp [payloadUpTo, take_finRange_succ hi, hchunk]
  have hnames : namesUpTo h (i + 1) = namesUpTo h i ++ path.bytes ++ ftstrSeparator := by
    simp [namesUpTo, take_finRange_succ hi, hname]
  rcases packFile_cases hp with ⟨hno, _⟩ | ⟨hnone, _⟩ | ⟨bytes', hread', htmp, hcp, htot, hret⟩
  · rw [hno] at hread
    cases hread
  · rw [hnone] at hread
    cases hread
  obtain rfl : bytes = bytes' := Option.some.inj (hread.symm.trans hread')
  refine ⟨?_, ?_, ?_, ?_⟩
  · rw [htmp, hP.tmpstr, hnames]
  · rw [htot, hP.totsz, hpay, List.length_append]
    push_cast
    rfl
  · rw [hcp, hP.totsz, hpay, List.length_append, Memory.read_add]
    rw [Memory.read_write_disjoint (Or.inl (by simp)), hP.cp, zero_add, Memory.read_write]
  · intro j
    rw [hret]
    by_cases hj : j = ⟨i, hi⟩
    · subst hj
      simp [hchunk]
    · have hne : j.val ≠ i := fun he => hj (Fin.ext he)
      have hiff : j.val < i + 1 ↔ j.val < i := by omega
      rw [Function.update_of_ne hj, hP.retval j]
      simp only [hiff]

theorem Packed.run (hP : Packed h opt files i p)
    (hgood : ∀ j : Fin transoptSize, i ≤ j.val → j.val < i + k → Good h opt files j)
    (hp : packFrom alloc h opt files k i p = some q) : Packed h opt files (i + k) q := by
  induction k generalizing i p with
  | zero =>
    obtain rfl : p = q := Option.some.inj hp
    exact hP
  | succ k ih =>
    unfold packFrom at hp
    split at hp
    · rename_i hi
      obtain ⟨path, bytes, hname, hread⟩ := hgood ⟨i, hi⟩ (le_refl i) (by simp)
      rw [hname] at hp
      obtain ⟨p', hp', hrest⟩ := Option.bind_eq_some_iff.mp hp
      have hnext := ih (hP.step hi hname hread hp')
        (fun j hij hj => hgood j (by omega) (by omega)) hrest
      rwa [show i + (k + 1) = i + 1 + k by omega]
    · cases hp

theorem packFrom_assigned {j : Fin transoptSize} {v : Int32} (hv : 0 ≤ v)
    (hp : packFrom alloc h opt files k i p = some q) (hq : q.retval j = some v) :
    p.retval j = some v ∨ (i ≤ j.val ∧ j.val < i + k ∧ Good h opt files j) := by
  induction k generalizing i p with
  | zero =>
    obtain rfl : p = q := Option.some.inj hp
    exact Or.inl hq
  | succ k ih =>
    unfold packFrom at hp
    split at hp
    · rename_i hi
      split at hp
      · obtain rfl : p = q := Option.some.inj hp
        exact Or.inl hq
      · rename_i path hname
        obtain ⟨p', hp', hrest⟩ := Option.bind_eq_some_iff.mp hp
        rcases ih hrest with hold | ⟨hlo, hhi, hg⟩
        · by_cases hj : j = ⟨i, hi⟩
          · subst hj
            rcases packFile_cases hp' with ⟨_, rfl⟩ | ⟨_, hret⟩ | ⟨bytes, hread, _, _, _, _⟩
            · exact Or.inl hold
            · rw [hret, Function.update_self] at hold
              rw [← Option.some.inj hold] at hv
              exact absurd hv (by decide)
            · exact Or.inr ⟨le_refl i, by simp, path, bytes, hname, hread⟩
          · refine Or.inl ?_
            rcases packFile_cases hp' with ⟨_, rfl⟩ | ⟨_, hret⟩ | ⟨_, _, _, _, _, hret⟩
            · exact hold
            · rwa [hret, Function.update_of_ne hj] at hold
            · rwa [hret, Function.update_of_ne hj] at hold
        · exact Or.inr ⟨by omega, by omega, hg⟩
    · cases hp

end Loop

/-! ## The files in the reply -/

def FileRead.opens : FileRead → Bool
  | .noOpen => false
  | _ => true

/-- The paths of the first `n` entries whose index meets `c`. -/
def pick (h : HistData) (c : Fin transoptSize → Bool) (n : Nat) : List Path :=
  ((List.finRange transoptSize).take n).filterMap fun i => if c i then h.fname i else none

def opened (h : HistData) (files : Fin transoptSize → FileRead) (n : Nat) : List Path :=
  pick h (fun i => (files i).opens) n

def listText (paths : List Path) : List UInt8 := paths.flatMap fun p => p.bytes ++ ftstrSeparator

section Opened
variable {alloc : Nat} {h : HistData} {opt : Opt} {files : Fin transoptSize → FileRead}

theorem pick_succ {c : Fin transoptSize → Bool} {n : Nat} (hn : n < transoptSize) : pick h c (n + 1) =
    pick h c n ++ (if c ⟨n, hn⟩ then h.fname ⟨n, hn⟩ else none).toList := by
  unfold pick
  rw [take_finRange_succ hn, List.filterMap_append]
  congr 1

theorem opened_succ {i : Nat} (hi : i < transoptSize) {path : Path}
    (hpath : h.fname ⟨i, hi⟩ = some path) : listText (opened h files (i + 1)) =
      listText (opened h files i) ++
        if (files ⟨i, hi⟩).opens then path.bytes ++ ftstrSeparator else [] := by
  unfold opened listText
  rw [pick_succ hi, List.flatMap_append, hpath]
  split <;> simp

theorem strcat_length {dst src s : List UInt8} (hs : strcat dst src = some s) :
    s.length < scmdStrsiz := by
  have hval := strcat_eq_some hs
  unfold strcat at hs
  split at hs
  · rw [hval, List.length_append]
    assumption
  · cases hs

theorem strcat_strcat {dst a b s t : List UInt8} (hs : strcat dst a = some s)
    (ht : strcat s b = some t) : t = dst ++ (a ++ b) ∧ t.length < scmdStrsiz := by
  have hshort := strcat_length ht
  obtain rfl := strcat_eq_some hs
  obtain rfl := strcat_eq_some ht
  exact ⟨List.append_assoc _ _ _, hshort⟩

theorem packFile_tmpstr {i : Fin transoptSize} {path : Path} {file : FileRead} {p q : Pack}
    (hp : packFile alloc opt i path file p = some q) (hlen : p.tmpstr.length < scmdStrsiz) :
    q.tmpstr = p.tmpstr ++ (if file.opens then path.bytes ++ ftstrSeparator else []) ∧
      q.tmpstr.length < scmdStrsiz := by
  cases file with
  | noOpen =>
    obtain rfl : p = q := Option.some.inj hp
    exact ⟨(List.append_nil _).symm, hlen⟩
  | noRead =>
    obtain ⟨name, hname, hp⟩ := Option.bind_eq_some_iff.mp hp
    obtain ⟨tmpstr, htmp, hp⟩ := Option.bind_eq_some_iff.mp hp
    rw [← Option.some.inj hp]
    exact strcat_strcat hname htmp
  | content bytes =>
    obtain ⟨name, hname, hp⟩ := Option.bind_eq_some_iff.mp hp
    obtain ⟨tmpstr, htmp, hp⟩ := Option.bind_eq_some_iff.mp hp
    have hq : q.tmpstr = tmpstr := by
      split at hp
      · rw [← Option.some.inj hp]
      · obtain ⟨cp, _, hp⟩ := Option.bind_eq_some_iff.mp hp
        rw [← Option.some.inj hp]
    rw [hq]
    exact strcat_strcat hname htmp

/-- As long as the loop runs, `tmpstr` lists the opened files within its bytes. -/
theorem packFrom_tmpstr {k i : Nat} {p q : Pack}
    (hname : ∀ j : Fin fnameMax, j.val < i + k → h.fname j ≠ none)
    (hp : packFrom alloc h opt files k i p = some q) (htext : p.tmpstr = listText (opened h files i))
    (hlen : p.tmpstr.length < scmdStrsiz) :
    q.tmpstr = listText (opened h files (i + k)) ∧ q.tmpstr.length < scmdStrsiz := by
  induction k generalizing i p with
  | zero =>
    obtain rfl : p = q := Option.some.inj hp
    exact ⟨htext, hlen⟩
  | succ k ih =>
    unfold packFrom at hp
    split at hp
    · rename_i hi
      obtain ⟨path, hpath⟩ := Option.ne_none_iff_exists'.mp (hname ⟨i, hi⟩ (by simp only; omega))
      rw [hpath] at hp
      obtain ⟨p', hfile, hp⟩ := Option.bind_eq_some_iff.mp hp
      obtain ⟨hp', hlen'⟩ := packFile_tmpstr hfile hlen
      rw [htext, ← opened_succ hi hpath] at hp'
      rw [show i + (k + 1) = i + 1 + k by omega] at hname ⊢
      exact ih hname hp hp' hlen'
    · cases hp

theorem packFile_retval {i : Fin transoptSize} {path : Path} {file : FileRead} {p q : Pack}
    (hp : packFile alloc opt i path file p = some q) (j : Fin transoptSize) :
    (q.retval j).isSome ↔ (p.retval j).isSome ∨ j = i ∧ file.opens := by
  have hstored : file.opens → ∃ v, q.retval = Function.update p.retval i (some v) := by
    intro hopen
    rcases packFile_cases hp with ⟨rfl, _⟩ | ⟨_, hret⟩ | ⟨bytes, _, _, _, _, hret⟩
    · cases hopen
    · exact ⟨_, hret⟩
    · exact ⟨_, hret⟩
  cases hopen : file.opens with
  | false =>
    obtain rfl : file = .noOpen := by
      cases file with
      | noOpen => rfl
      | noRead => cases hopen
      | content bytes => cases hopen
    obtain rfl : p = q := Option.some.inj hp
    simp
  | true =>
    obtain ⟨v, hret⟩ := hstored hopen
    rw [hret]
    by_cases hj : j = i
    · simp [hj]
    · simp [hj]

/-- The loop assigns `retval` for the files it opens. -/
theorem packFrom_retval {k i : Nat} {p q : Pack}
    (hname : ∀ j : Fin fnameMax, j.val < i + k → h.fname j ≠ none)
    (hp : packFrom alloc h opt files k i p = some q) (j : Fin transoptSize) :
    (q.retval j).isSome ↔ (p.retval j).isSome ∨ i ≤ j.val ∧ j.val < i + k ∧ (files j).opens := by
  induction k generalizing i p with
  | zero =>
    obtain rfl : p = q := Option.some.inj hp
    exact ⟨Or.inl, fun h => h.elim id fun ⟨hlo, hhi, _⟩ => absurd hhi (Nat.not_lt.mpr hlo)⟩
  | succ k ih =>
    unfold packFrom at hp
    split at hp
    · rename_i hi
      obtain ⟨path, hpath⟩ := Option.ne_none_iff_exists'.mp (hname ⟨i, hi⟩ (by simp only; omega))
      rw [hpath] at hp
      obtain ⟨p', hfile, hp⟩ := Option.bind_eq_some_iff.mp hp
      rw [show i + (k + 1) = i + 1 + k by omega] at hname ⊢
      rw [ih hname hp, packFile_retval hfile, or_assoc, or_congr_right]
      by_cases hj : j = ⟨i, hi⟩
      · subst hj
        have hlt : i < i + 1 + k := by omega
        simp [hlt]
      · have hne : j.val ≠ i := fun he => hj (Fin.ext he)
        simp only [hj, false_and, false_or]
        exact ⟨fun ⟨hlo, hhi⟩ => ⟨by omega, hhi⟩, fun ⟨hlo, hhi⟩ => ⟨by omega, hhi⟩⟩
    · cases hp

end Opened

/-! ## The reply as a whole -/

section Reply
variable {h : HistData} {opt : Opt} {files : Fin transoptSize → FileRead} {heap : Memory}
variable {nsize n : Nat} {r : GetReply}

theorem serveGet_eq_some (hs : serveGet nsize h opt files heap = some (n, some r)) :
    n = min nsize (leading opt) ∧ ∃ alloc p,
      packFrom alloc h opt files n 0 (.start heap) = some p ∧ p.tmpstr ≠ [] ∧
        r = ⟨h.date, p.tmpstr.dropLast, p.cp, p.totsz, p.retval⟩ := by
  obtain ⟨⟨n', alloc⟩, hsum, hs⟩ := Option.bind_eq_some_iff.mp hs
  simp only at hs
  split at hs
  · simp at hs
  obtain ⟨p, hp, hs⟩ := Option.bind_eq_some_iff.mp hs
  split at hs
  · cases hs
  rename_i hne
  simp only [Option.some.injEq, Prod.mk.injEq] at hs
  obtain ⟨rfl, hr⟩ := hs
  exact ⟨sumSizes_index hsum, _, p, hp, hne, hr.symm⟩

theorem framed_of_good (hs : serveGet nsize h opt files heap = some (n, some r))
    (hgood : ∀ i : Fin transoptSize, i.val < n → Good h opt files i) : Framed r n := by
  obtain ⟨_, alloc, p, hp, _, rfl⟩ := serveGet_eq_some hs
  have hP := (packed_start heap).run (fun j _ hj => hgood j (by omega)) hp
  rw [zero_add] at hP
  have hval : ∀ i : Fin transoptSize, i.val < n →
      p.retval i = some (Int32.ofNat (chunk opt files i).length) := by
    intro i hi
    rw [hP.retval i, if_pos hi]
  refine ⟨?_, ?_⟩
  · intro i hi
    refine ⟨_, hval i hi, ?_⟩
    rw [Int32.le_iff_toInt_le, toInt_ofNat_chunk, Int32.toInt_zero]
    exact Int.natCast_nonneg _
  · show _ = p.totsz
    rw [hP.totsz, payloadUpTo, List.length_flatMap, Nat.cast_list_sum, List.map_map]
    congr 1
    apply List.map_congr_left
    intro i hi
    have hlt : i.val < n := by
      obtain ⟨k, hk, hki⟩ := List.mem_take_iff_getElem.mp hi
      have : i.val = k := by simp [← hki]
      omega
    simp only [Function.comp_apply, hval i hlt, Option.getD_some, toInt_ofNat_chunk]

theorem good_of_framed {ent : Nat} (hs : serveGet nsize h opt files heap = some (n, some r))
    (hf : Framed r ent) {i : Fin transoptSize} (hi : i.val < ent) :
    i.val < n ∧ Good h opt files i := by
  obtain ⟨_, alloc, p, hp, _, rfl⟩ := serveGet_eq_some hs
  obtain ⟨v, hv, hnonneg⟩ := hf.assigned i hi
  rcases packFrom_assigned hnonneg hp hv with hstart | ⟨_, hlt, hg⟩
  · cases hstart
  · exact ⟨by omega, hg⟩

end Reply

def FileRead.Readable : FileRead → Prop
  | .content _ => True
  | _ => False

theorem good_iff {h : HistData} {opt : Opt} {files : Fin transoptSize → FileRead}
    {i : Fin transoptSize} :
    Good h opt files i ↔ h.fname i ≠ none ∧ (files i).Readable ∧ 0 ≤ opt i := by
  constructor
  · rintro ⟨path, bytes, hname, hread⟩
    refine ⟨by simp [hname], ?_, (read_length_le hread).1⟩
    cases hf : files i with
    | content _ => trivial
    | noOpen =>
      rw [hf] at hread
      cases hread
    | noRead =>
      rw [hf] at hread
      cases hread
  · rintro ⟨hname, hfile, hopt⟩
    obtain ⟨path, hpath⟩ := Option.ne_none_iff_exists'.mp hname
    cases hf : files i with
    | content bytes =>
      refine ⟨path, bytes.take (opt i).toInt.toNat, hpath, ?_⟩
      simp [hf, FileRead.read, Int32.not_lt.mpr hopt]
    | noOpen =>
      rw [hf] at hfile
      exact hfile.elim
    | noRead =>
      rw [hf] at hfile
      exact hfile.elim

/-- The entries a request leaves open are zero, so at most `ent` files are packed. -/
theorem leading_request_le (size : Nat → Int32) {ent : Nat} (hent : ent ≤ transoptSize) :
    leading (request .get size ent).opt ≤ ent := by
  by_contra hlt
  have hlead := leading_le (request .get size ent).opt
  have hne := ne_zero_of_lt_leading (o := (request .get size ent).opt) (i := ⟨ent, by omega⟩)
    (by simp only; omega)
  simp [request] at hne

/-- When a GET reply is well framed. The header describes the payload for each of the
`ent` entries the client will read if and only if the server packs at least `ent`
files, each of positive requested size, and each of them is found, opened and read. -/
theorem get_reply_framed_iff {nsize ent : Nat} {size : Nat → Int32} {h : HistData}
    {files : Fin transoptSize → FileRead} {heap : Memory} {n : Nat} {r : GetReply}
    (hent : 1 ≤ ent ∧ ent ≤ transoptSize)
    (hs : serveGet nsize h (request .get size ent).opt files heap = some (n, some r)) :
    Framed r ent ↔ ent ≤ nsize ∧ ∀ i : Fin transoptSize, i.val < ent →
      0 < size i.val ∧ h.fname i ≠ none ∧ (files i).Readable := by
  have hn := (serveGet_eq_some hs).1
  have hlead := leading_request_le size hent.2
  have hopt : ∀ i : Fin transoptSize, i.val < ent → (request .get size ent).opt i = size i.val := by
    intro i hi
    have hi' : ((i.val : Nat) : Int) < (ent : Int) := by exact_mod_cast hi
    simp only [request, if_pos hi']
  constructor
  · intro hf
    have hlast := good_of_framed hs hf (i := ⟨ent - 1, by omega⟩) (by simp only; omega)
    refine ⟨?_, ?_⟩
    · have := hlast.1
      simp only at this
      omega
    · intro i hi
      obtain ⟨hin, hg⟩ := good_of_framed hs hf hi
      obtain ⟨hname, hread, hnonneg⟩ := good_iff.mp hg
      have hne : size i.val ≠ 0 := hopt i hi ▸ ne_zero_of_lt_leading (i := i) (by omega)
      rw [hopt i hi] at hnonneg
      exact ⟨Int32.lt_of_le_of_ne hnonneg hne.symm, hname, hread⟩
  · rintro ⟨hns, hall⟩
    have hfull : leading (request .get size ent).opt = ent := by
      by_contra hne
      have hlt : leading (request .get size ent).opt < ent := by omega
      have hzero := eq_zero_at_leading (o := (request .get size ent).opt)
        (i := ⟨leading (request .get size ent).opt, by omega⟩) rfl
      rw [hopt _ hlt] at hzero
      have hpos := (hall ⟨leading (request .get size ent).opt, by omega⟩ hlt).1
      simp only at hpos hzero
      rw [hzero] at hpos
      exact absurd hpos (by decide)
    obtain rfl : n = ent := by omega
    refine framed_of_good hs fun i hi => good_iff.mpr ?_
    obtain ⟨hpos, hname, hread⟩ := hall i hi
    exact ⟨hname, hread, by rw [hopt i hi]; exact Int32.le_of_lt hpos⟩

theorem get_reply_framed_iff_two :
    ∃ n r, serveGet 2 ⟨7, ![some ⟨[97], by decide⟩, some ⟨[98], by decide⟩, none]⟩
        (request .get (fun _ => 2) (2 : Nat)).opt
        ![.content [1], .content [2, 3, 4], .noOpen] (fun _ => 0) = some (n, some r) ∧
      Framed r 2 := by
  refine ⟨_, _, rfl, ?_⟩
  refine (@get_reply_framed_iff 2 2 (fun _ => 2)
    ⟨7, ![some ⟨[97], by decide⟩, some ⟨[98], by decide⟩, none]⟩
    ![.content [1], .content [2, 3, 4], .noOpen] (fun _ => 0) _ _ (by decide) rfl).mpr
    ⟨le_refl 2, ?_⟩
  intro i hi
  fin_cases i
  · exact ⟨by decide, by simp, trivial⟩
  · exact ⟨by decide, by simp, trivial⟩
  · exact absurd hi (by decide)

/-- One configured type and a request of two entries: `retval[1]` is sent as found. -/
theorem get_reply_entry_unassigned :
    ∃ n r, serveGet 1 ⟨7, ![some ⟨[97], by decide⟩, none, none]⟩
        (request .get (fun _ => 1) (2 : Nat)).opt ![.content [1], .noOpen, .noOpen]
        (fun _ => 0) = some (n, some r) ∧ r.retval 1 = none ∧ ¬ Framed r 2 := by
  refine ⟨_, _, rfl, rfl, fun hf => ?_⟩
  obtain ⟨v, hv, _⟩ := hf.assigned 1 (by decide)
  cases hv

end JitDt.Lwatcher
