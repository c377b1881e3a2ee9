import JitDt.Regexplib.Scanner
import JitDt.Translib.Sftp

/-!
# The time of completion

`dateconv` cuts the text of `ctime_r` into words in place and prints four of them, the month as
a number, and the milliseconds, with colons between them. Two pointers run over the text; where
blanks are doubled both step on. `none` stands for a null pointer that is followed and for a
place behind `dp`.
-/

namespace JitDt.Misclib

set_option autoImplicit false

open Regexplib (ascii isalpha isdigit)
open Translib (decimal)

/-! ## The functions -/

/-- `tv_usec` counts below a second; that it is an `int` is enough here. -/
structure Timeval where
  tv_sec : Int64
  tv_usec : Int64
  usec_int : -2 ^ 31 ≤ tv_usec.toInt ∧ tv_usec.toInt < 2 ^ 31

def mname : List (List UInt8) :=
  [ascii "Jan", ascii "Feb", ascii "Mar", ascii "Apr", ascii "May", ascii "Jun", ascii "Jul",
    ascii "Aug", ascii "Sep", ascii "Oct", ascii "Nov", ascii "Dec"]

def conv_month (month : List UInt8) : Nat :=
  match mname.findIdx? (· = month) with
  | some i => i + 1
  | none => 0

/-- `index` on the string at position `p` of a buffer. -/
def index (b : List UInt8) (p : Nat) (ch : UInt8) : Option Nat :=
  if ch ∈ cstrOf (b.drop p) then some (p + (cstrOf (b.drop p)).idxOf ch) else none

/-- The `while` loop over doubled blanks, at most `k` tests of it. -/
def skipDoubled (b : List UInt8) : Nat → Nat → Nat → Option (Nat × Nat)
  | 0, _, _ => none
  | k + 1, idx, nidx =>
    if b[idx]? = some ' '.toUInt8 then
      (index b (nidx + 1) ' '.toUInt8).bind (skipDoubled b k (idx + 1))
    else some (idx, nidx)

/-- The `for` loop and the line behind it with `k` places left in `dp`: the buffer, and what is
stored in these places. -/
def cutWords : Nat → List UInt8 → Nat → Option Nat → Option (List UInt8 × List Nat)
  | 0, _, _, _ => none
  | _ + 1, b, idx, none =>
    match index b idx '\n'.toUInt8 with
    | some p => some (b.set p 0, [idx])
    | none => some (b, [idx])
  | k + 1, b, idx, some nidx =>
    (skipDoubled b b.length idx nidx).bind fun x =>
      (cutWords k (b.set x.2 0) (x.2 + 1) (index (b.set x.2 0) (x.2 + 1) ' '.toUInt8)).map fun r =>
        (r.1, x.1 :: r.2)

/-- The string at position `p` of a buffer. -/
def str (b : List UInt8) (p : Nat) : List UInt8 := cstrOf (b.drop p)

/-- `%d` -/
def printInt (z : Int) : List UInt8 :=
  if z < 0 then '-'.toUInt8 :: decimal z.natAbs else decimal z.natAbs

def idxMonth : Nat := 1
def idxDate : Nat := 2
def idxTime : Nat := 3
def idxYear : Nat := 4

/-- `ctime_r` writes its text in front of what `dbuf` held; the result is what `fmtbuf` holds. -/
def dateconv (ctime_r : Int64 → List UInt8) (tsec : Timeval) (dbuf : List UInt8) :
    Option (List UInt8) := do
  let text := ctime_r tsec.tv_sec
  let b := text ++ 0 :: dbuf.drop (text.length + 1)
  let r ← cutWords 10 b 0 (index b 0 ' '.toUInt8)
  let year ← r.2[idxYear]?
  let month ← r.2[idxMonth]?
  let date ← r.2[idxDate]?
  let time ← r.2[idxTime]?
  let ms := tsec.tv_usec.toInt32.toInt.tdiv 1000
  pure (str r.1 year ++ ':'.toUInt8 :: (printInt (conv_month (str r.1 month)) ++ ':'.toUInt8 ::
    (str r.1 date ++ ':'.toUInt8 :: (str r.1 time ++ ':'.toUInt8 :: printInt ms))))

/-! ## Cutting a text into words -/

/-- A word of the text. -/
structure IsWord (w : List UInt8) : Prop where
  ne_nil : w ≠ []
  blank_free : ' '.toUInt8 ∉ w
  nul_free : (0 : UInt8) ∉ w

/-- Words with a number of additional blanks in front of each, and what follows them. -/
def spaced : List (Nat × List UInt8) → List UInt8 → List UInt8
  | [], s => s
  | (g, w) :: l, s => List.replicate g ' '.toUInt8 ++ (w ++ ' '.toUInt8 :: spaced l s)

theorem cstrOf_nul {w : List UInt8} (h : (0 : UInt8) ∉ w) (s : List UInt8) :
    cstrOf (w ++ 0 :: s) = w := by
  rw [cstrOf_append h]
  simp [cstrOf]

theorem set_behind (pre s : List UInt8) (c d : UInt8) :
    (pre ++ c :: s).set pre.length d = pre ++ d :: s := by
  rw [List.set_append_right _ _ (le_refl _), Nat.sub_self, List.set_cons_zero]

theorem str_append (pre s : List UInt8) : str (pre ++ s) pre.length = cstrOf s := by
  rw [str, List.drop_left]

section Index
variable {w : List UInt8} {ch : UInt8} (pre s : List UInt8)

theorem index_append (hnul : (0 : UInt8) ∉ w) (hch : ch ∉ w) (hne : ch ≠ 0) :
    index (pre ++ (w ++ ch :: s)) pre.length ch = some (pre.length + w.length) := by
  have hstr : cstrOf (w ++ ch :: s) = w ++ ch :: cstrOf s := by
    rw [cstrOf_append hnul, cstrOf, List.takeWhile_cons_of_pos (by simpa using hne)]
    rfl
  have hidx : (w ++ ch :: cstrOf s).idxOf ch = w.length := by
    rw [List.idxOf_append_of_notMem hch, List.idxOf_cons_self, Nat.add_zero]
  rw [index, List.drop_left, hstr, hidx, if_pos (by simp)]

theorem index_none (h : ch ∉ cstrOf s) : index (pre ++ s) pre.length ch = none := by
  rw [index, List.drop_left, if_neg h]

/-- The next blank is at once one of the additional blanks, or the one behind the word. -/
theorem index_gap (hw : IsWord w) (g : Nat) :
    index (pre ++ (List.replicate g ' '.toUInt8 ++ (w ++ ' '.toUInt8 :: s))) pre.length
      ' '.toUInt8 = some (pre.length + if g = 0 then w.length else 0) := by
  cases g with
  | zero => exact index_append pre s hw.nul_free hw.blank_free (by decide)
  | succ g => exact @index_append [] _ pre _ (by simp) (by simp) (by decide)

end Index

theorem replicate_step (pre t : List UInt8) (g : Nat) :
    pre ++ (List.replicate (g + 1) ' '.toUInt8 ++ t) =
      (pre ++ [' '.toUInt8]) ++ (List.replicate g ' '.toUInt8 ++ t) := by
  rw [List.replicate_succ, List.cons_append, List.append_assoc]
  rfl

/-- Both pointers step over the additional blanks. -/
theorem skipDoubled_eq {w : List UInt8} (hw : IsWord w) (s pre : List UInt8) {g k : Nat} (hk : g < k) :
    skipDoubled (pre ++ (List.replicate g ' '.toUInt8 ++ (w ++ ' '.toUInt8 :: s))) k pre.length
      (pre.length + if g = 0 then w.length else 0) =
        some (pre.length + g, pre.length + g + w.length) := by
  induction g generalizing pre k with
  | zero =>
    cases k with
    | zero => exact absurd hk (Nat.not_lt_zero _)
    | succ k =>
      obtain ⟨c, w', rfl⟩ := List.exists_cons_of_ne_nil hw.ne_nil
      have hhead : (pre ++ (List.replicate 0 ' '.toUInt8 ++ (c :: w' ++ ' '.toUInt8 :: s)))[pre.length]? =
          some c := by
        simp
      have hne : some c ≠ some ' '.toUInt8 := by
        intro heq
        apply hw.blank_free
        rw [← Option.some.inj heq]
        exact List.mem_cons_self
      rw [skipDoubled, hhead, if_neg hne]
      rfl
  | succ g ih =>
    cases k with
    | zero => exact absurd hk (Nat.not_lt_zero _)
    | succ k =>
      rw [replicate_step]
      have hhead : ((pre ++ [' '.toUInt8]) ++
          (List.replicate g ' '.toUInt8 ++ (w ++ ' '.toUInt8 :: s)))[pre.length]? =
            some ' '.toUInt8 := by
        simp
      have hlen : (pre ++ [' '.toUInt8]).length = pre.length + 1 := by simp
      have hrest := ih (pre ++ [' '.toUInt8]) (Nat.lt_of_succ_lt_succ hk)
      have hnext := index_gap (pre ++ [' '.toUInt8]) s hw g
      rw [hlen] at hrest hnext
      rw [skipDoubled, if_pos hhead, if_neg (Nat.succ_ne_zero g), Nat.add_zero, hnext,
        Option.bind_some, hrest, Nat.add_right_comm, Nat.add_assoc pre.length g 1]

/-- The loop finds the words of the text, and every one ends at a NUL; what lies in front of the
pointers is not touched any more. -/
theorem cutWords_spaced {l : List (Nat × List UInt8)} (hl : ∀ x ∈ l, IsWord x.2) {last : List UInt8}
    (hlast : IsWord last) (hline : '\n'.toUInt8 ∉ last) (rest pre : List UInt8) {k : Nat}
    (hk : l.length < k) :
    ∃ s dp, cutWords k (pre ++ spaced l (last ++ '\n'.toUInt8 :: 0 :: rest)) pre.length
        (index (pre ++ spaced l (last ++ '\n'.toUInt8 :: 0 :: rest)) pre.length ' '.toUInt8) =
          some (pre ++ s, dp) ∧ dp.map (str (pre ++ s)) = l.map Prod.snd ++ [last] := by
  induction l generalizing pre k with
  | nil =>
    obtain ⟨k, rfl⟩ : ∃ k', k = k' + 1 := ⟨k - 1, by simp at hk; omega⟩
    have hstr : cstrOf (last ++ '\n'.toUInt8 :: 0 :: rest) = last ++ ['\n'.toUInt8] := by
      rw [cstrOf_append hlast.nul_free]
      rfl
    have hblank : index (pre ++ (last ++ '\n'.toUInt8 :: 0 :: rest)) pre.length ' '.toUInt8 = none := by
      apply index_none
      rw [hstr, List.mem_append, List.mem_singleton]
      rintro (hmem | heq)
      · exact hlast.blank_free hmem
      · exact absurd heq (by decide)
    have hnl := index_append pre (0 :: rest) hlast.nul_free hline (by decide)
    have hset := set_behind (pre ++ last) (0 :: rest) '\n'.toUInt8 0
    rw [List.length_append, List.append_assoc, List.append_assoc] at hset
    refine ⟨last ++ 0 :: 0 :: rest, [pre.length], ?_, ?_⟩
    · simp only [spaced, hblank, cutWords, hnl, hset]
    · rw [List.map_singleton, str_append, cstrOf_nul hlast.nul_free]
      rfl
  | cons x l ih =>
    obtain ⟨g, w⟩ := x
    obtain ⟨k, rfl⟩ : ∃ k', k = k' + 1 := ⟨k - 1, by simp at hk; omega⟩
    have hw : IsWord w := hl (g, w) List.mem_cons_self
    generalize htail : spaced l (last ++ '\n'.toUInt8 :: 0 :: rest) = tail at ih
    have hspaced : spaced ((g, w) :: l) (last ++ '\n'.toUInt8 :: 0 :: rest) =
        List.replicate g ' '.toUInt8 ++ (w ++ ' '.toUInt8 :: tail) := by
      rw [spaced, htail]
    have hroom : g < (pre ++ (List.replicate g ' '.toUInt8 ++ (w ++ ' '.toUInt8 :: tail))).length := by
      simp only [List.length_append, List.length_replicate, List.length_cons]
      omega
    -- what lies in front of the pointers in the next round
    generalize hfront : pre ++ (List.replicate g ' '.toUInt8 ++ w) = front
    have hbuf : pre ++ (List.replicate g ' '.toUInt8 ++ (w ++ ' '.toUInt8 :: tail)) =
        front ++ ' '.toUInt8 :: tail := by
      rw [← hfront, List.append_assoc, List.append_assoc]
    have hlen : pre.length + g + w.length = front.length := by
      rw [← hfront, List.length_append, List.length_append, List.length_replicate, Nat.add_assoc]
    obtain ⟨s, dp, hrun, hdp⟩ := @ih (fun y hy => hl y (List.mem_cons_of_mem _ hy))
      (front ++ [0]) k (by simpa using hk)
    rw [List.length_append, List.length_singleton, List.append_assoc, List.append_assoc,
      List.singleton_append, List.singleton_append] at hrun
    rw [List.append_assoc, List.singleton_append] at hdp
    have hskip := skipDoubled_eq hw tail pre hroom
    rw [hbuf, hlen] at hskip
    have hrest : pre ++ (List.replicate g ' '.toUInt8 ++ (w ++ 0 :: s)) = front ++ 0 :: s := by
      rw [← hfront, List.append_assoc, List.append_assoc]
    refine ⟨List.replicate g ' '.toUInt8 ++ (w ++ 0 :: s), (pre.length + g) :: dp, ?_, ?_⟩
    · rw [hspaced, index_gap pre tail hw g, cutWords, hbuf, hskip, Option.bind_some]
      simp only [set_behind, hrun, hrest, Option.map_some]
    · have hword : str (front ++ 0 :: s) (pre.length + g) = w := by
        have hpre : pre.length + g = (pre ++ List.replicate g ' '.toUInt8).length := by
          rw [List.length_append, List.length_replicate]
        rw [← hrest, ← List.append_assoc, hpre, str_append, cstrOf_nul hw.nul_free]
      rw [hrest, List.map_cons, hword, hdp]
      rfl

/-! ## The text of `ctime_r` -/

def Digits (n : Nat) (s : List UInt8) : Prop := s.length = n ∧ ∀ c ∈ s, isdigit c

/-- The parts of a text `Www Mmm dd hh:mm:ss yyyy`. -/
structure Ctime where
  wday : List UInt8
  month : Fin 12
  day : Nat
  hour : List UInt8
  min : List UInt8
  sec : List UInt8
  year : List UInt8
  wday_alpha : wday.length = 3 ∧ ∀ c ∈ wday, isalpha c
  day_range : 1 ≤ day ∧ day ≤ 31
  hour_digits : Digits 2 hour
  min_digits : Digits 2 min
  sec_digits : Digits 2 sec
  year_digits : Digits 4 year

namespace Ctime

def mon (t : Ctime) : List UInt8 := mname.getD t.month.val []

def time (t : Ctime) : List UInt8 := t.hour ++ ':'.toUInt8 :: (t.min ++ ':'.toUInt8 :: t.sec)

/-- The blank in front of a day of one digit. -/
def pad (t : Ctime) : Nat := if t.day < 10 then 1 else 0

def text (t : Ctime) : List UInt8 :=
  t.wday ++ ' '.toUInt8 :: (t.mon ++ ' '.toUInt8 ::
    (List.replicate t.pad ' '.toUInt8 ++ (decimal t.day ++ ' '.toUInt8 ::
      (t.time ++ ' '.toUInt8 :: (t.year ++ ['\n'.toUInt8])))))

/-- The fields that calc_delay2.pl reads. -/
def fields (t : Ctime) (ms : Int) : List (List UInt8) :=
  [t.year, printInt (t.month.val + 1), decimal t.day, t.hour, t.min, t.sec, printInt ms]

end Ctime

theorem isdigit_toNat {c : UInt8} (h : isdigit c) : 48 ≤ c.toNat ∧ c.toNat ≤ 57 := by
  simpa [isdigit, UInt8.le_iff_toNat_le] using h

theorem isalpha_toNat {c : UInt8} (h : isalpha c) : 65 ≤ c.toNat := by
  simp only [isalpha, Bool.or_eq_true, Bool.and_eq_true, decide_eq_true_eq,
    UInt8.le_iff_toNat_le] at h
  rcases h with h | h
  · exact h.1
  · exact (by decide : 65 ≤ (97 : UInt8).toNat).trans h.1

/-- Characters behind the blank in the code make a word. -/
theorem IsWord.of_toNat {w : List UInt8} (hne : w ≠ []) (h : ∀ c ∈ w, 32 < c.toNat) : IsWord w := by
  refine ⟨hne, ?_, ?_⟩
  · intro hmem
    exact absurd (h _ hmem) (by decide)
  · intro hmem
    exact absurd (h _ hmem) (by decide)

theorem decimal_digits (n : Nat) : ∀ c ∈ decimal n, isdigit c := by
  intro c hc
  obtain ⟨d, hd, rfl⟩ := List.mem_map.mp hc
  have hdigit := Nat.isDigit_of_mem_toDigits (by decide) (by decide) hd
  simp only [Char.isDigit, Bool.and_eq_true, decide_eq_true_eq, ge_iff_le,
    UInt32.le_iff_toNat_le] at hdigit
  have hlow : 48 ≤ d.toNat := hdigit.1
  have hhigh : d.toNat ≤ 57 := hdigit.2
  have hmod : d.toNat % 2 ^ 8 = d.toNat := Nat.mod_eq_of_lt (by omega)
  simp only [isdigit, Bool.and_eq_true, decide_eq_true_eq, UInt8.le_iff_toNat_le,
    UInt8.toNat_ofNat', hmod]
  exact ⟨hlow, hhigh⟩

theorem decimal_ne_nil (n : Nat) : decimal n ≠ [] := by
  unfold decimal
  rw [Ne, List.map_eq_nil_iff]
  exact Nat.toDigits_ne_nil

theorem colon_notMem_of_digits {s : List UInt8} (h : ∀ c ∈ s, isdigit c) : ':'.toUInt8 ∉ s :=
  fun hmem => absurd (h _ hmem) (by decide)

theorem colon_notMem_printInt (z : Int) : ':'.toUInt8 ∉ printInt z := by
  have hdigits := colon_notMem_of_digits (decimal_digits z.natAbs)
  unfold printInt
  split
  · rw [List.mem_cons, not_or]
    exact ⟨by decide, hdigits⟩
  · exact hdigits

theorem isWord_of_digits {s : List UInt8} (hne : s ≠ []) (h : ∀ c ∈ s, isdigit c) : IsWord s :=
  .of_toNat hne fun c hc => (by decide : 32 < 48).trans_le (isdigit_toNat (h c hc)).1

theorem Digits.ne_nil {n : Nat} {s : List UInt8} (h : Digits (n + 1) s) : s ≠ [] := by
  rintro rfl
  exact absurd h.1 (Nat.succ_ne_zero n).symm

theorem conv_month_mname : ∀ m : Fin 12, conv_month (mname.getD m.val []) = m.val + 1 := by
  decide

theorem mname_word (m : Fin 12) : IsWord (mname.getD m.val []) := by
  apply IsWord.of_toNat
  · revert m
    decide
  · have hall : ∀ m : Fin 12, (mname.getD m.val []).all (fun c => 32 < c.toNat) := by decide
    simpa using hall m

namespace Ctime

variable (t : Ctime)

theorem wday_word : IsWord t.wday := by
  apply IsWord.of_toNat
  · intro hnil
    have hlen := t.wday_alpha.1
    rw [hnil] at hlen
    cases hlen
  · exact fun c hc => (by decide : 32 < 65).trans_le (isalpha_toNat (t.wday_alpha.2 c hc))

theorem time_word : IsWord t.time := by
  apply IsWord.of_toNat
  · simp [time]
  · intro c hc
    have hdigit : ∀ {n : Nat} {s : List UInt8}, Digits n s → c ∈ s → 32 < c.toNat :=
      fun h hmem => (by decide : 32 < 48).trans_le (isdigit_toNat (h.2 c hmem)).1
    rcases List.mem_append.mp hc with hc | hc
    · exact hdigit t.hour_digits hc
    · rcases List.mem_cons.mp hc with rfl | hc
      · decide
      · rcases List.mem_append.mp hc with hc | hc
        · exact hdigit t.min_digits hc
        · rcases List.mem_cons.mp hc with rfl | hc
          · decide
          · exact hdigit t.sec_digits hc

/-- The words in front of the year, with the blanks that are not needed. -/
def words : List (Nat × List UInt8) :=
  [(0, t.wday), (0, t.mon), (t.pad, decimal t.day), (0, t.time)]

theorem words_isWord : ∀ x ∈ t.words, IsWord x.2 := by
  have hday : IsWord (decimal t.day) := isWord_of_digits (decimal_ne_nil _) (decimal_digits _)
  simp only [words, List.mem_cons, List.not_mem_nil, or_false, forall_eq_or_imp, forall_eq]
  exact ⟨t.wday_word, mname_word t.month, hday, t.time_word⟩

theorem text_spaced (rest : List UInt8) :
    t.text ++ 0 :: rest = spaced t.words (t.year ++ '\n'.toUInt8 :: 0 :: rest) := by
  simp only [text, words, spaced, List.append_assoc, List.cons_append, List.replicate_zero,
    List.nil_append]

theorem colon_notMem_fields (ms : Int) : ∀ f ∈ t.fields ms, ':'.toUInt8 ∉ f := by
  simp only [fields, List.mem_cons, List.not_mem_nil, or_false, forall_eq_or_imp, forall_eq]
  exact ⟨colon_notMem_of_digits t.year_digits.2, colon_notMem_printInt _,
    colon_notMem_of_digits (decimal_digits _), colon_notMem_of_digits t.hour_digits.2,
    colon_notMem_of_digits t.min_digits.2, colon_notMem_of_digits t.sec_digits.2,
    colon_notMem_printInt _⟩

end Ctime

/-- The conversion to `int` keeps the microseconds. -/
theorem Timeval.usec_toInt32 (tsec : Timeval) :
    tsec.tv_usec.toInt32.toInt = tsec.tv_usec.toInt := by
  obtain ⟨hlow, hhigh⟩ := tsec.usec_int
  rw [Int64.toInt_toInt32]
  apply Int.bmod_eq_of_le
  · omega
  · omega

theorem dateconv_words {ctime_r : Int64 → List UInt8} {tsec : Timeval} {t : Ctime}
    (h : ctime_r tsec.tv_sec = t.text) (dbuf : List UInt8) :
    dateconv ctime_r tsec dbuf =
      some ([':'.toUInt8].intercalate (t.fields (tsec.tv_usec.toInt.tdiv 1000))) := by
  have hyear : IsWord t.year := isWord_of_digits t.year_digits.ne_nil t.year_digits.2
  have hline : '\n'.toUInt8 ∉ t.year := fun hmem => absurd (t.year_digits.2 _ hmem) (by decide)
  obtain ⟨s, dp, hcut, hdp⟩ := @cutWords_spaced t.words t.words_isWord t.year hyear hline
    (dbuf.drop (t.text.length + 1)) [] 10 (by simp [Ctime.words])
  rw [List.nil_append, List.nil_append, List.length_nil, ← t.text_spaced] at hcut
  have hget : ∀ i : Nat, (dp[i]?).map (str s) = (t.words.map Prod.snd ++ [t.year])[i]? := by
    intro i
    rw [← hdp, List.getElem?_map]
    rfl
  obtain ⟨year, hyear, hyearStr⟩ := Option.map_eq_some_iff.mp (hget idxYear)
  obtain ⟨month, hmonth, hmonthStr⟩ := Option.map_eq_some_iff.mp (hget idxMonth)
  obtain ⟨date, hdate, hdateStr⟩ := Option.map_eq_some_iff.mp (hget idxDate)
  obtain ⟨time, htime, htimeStr⟩ := Option.map_eq_some_iff.mp (hget idxTime)
  have hmon : conv_month (str s month) = t.month.val + 1 := by
    rw [hmonthStr]
    exact conv_month_mname t.month
  unfold dateconv
  simp only [h, hcut, hyear, hmonth, hdate, htime, hyearStr, hmon, hdateStr, htimeStr,
    tsec.usec_toInt32, Option.bind_eq_bind, Option.bind_some, Option.pure_def]
  simp [Ctime.fields, Ctime.time, List.intercalate]

/-- The output is cut at its colons into the fields of the time. -/
theorem dateconv_fields (ctime_r : Int64 → List UInt8) (tsec : Timeval) (t : Ctime)
    (h : ctime_r tsec.tv_sec = t.text) (dbuf : List UInt8) :
    ∃ fmtbuf, dateconv ctime_r tsec dbuf = some fmtbuf ∧
      fmtbuf = [':'.toUInt8].intercalate (t.fields (tsec.tv_usec.toInt.tdiv 1000)) ∧
      fmtbuf.splitOn ':'.toUInt8 = t.fields (tsec.tv_usec.toInt.tdiv 1000) := by
  refine ⟨_, dateconv_words h dbuf, rfl, ?_⟩
  apply List.splitOn_intercalate
  · exact t.colon_notMem_fields _
  · exact List.cons_ne_nil _ _

/-- The text of the comment in the source: a day of one digit behind two blanks. -/
theorem dateconv_fields_padded :
    ∃ (tsec : Timeval) (fmtbuf : List UInt8), tsec.tv_usec = 250000 ∧
      dateconv (fun _ => ascii "Thu Dec  8 12:35:31 2016\n") tsec [] = some fmtbuf ∧
      fmtbuf.splitOn ':'.toUInt8 = [ascii "2016", ascii "12", ascii "8", ascii "12", ascii "35",
        ascii "31", ascii "250"] := by
  obtain ⟨fmtbuf, hrun, _, hsplit⟩ := dateconv_fields
    (fun _ => ascii "Thu Dec  8 12:35:31 2016\n") ⟨1481168131, 250000, by decide⟩
    ⟨ascii "Thu", 11, 8, ascii "12", ascii "35", ascii "31", ascii "2016",
      ⟨rfl, List.all_eq_true.mp rfl⟩, by decide, ⟨rfl, List.all_eq_true.mp rfl⟩,
      ⟨rfl, List.all_eq_true.mp rfl⟩, ⟨rfl, List.all_eq_true.mp rfl⟩,
      ⟨rfl, List.all_eq_true.mp rfl⟩⟩ (by decide +kernel) []
  exact ⟨_, fmtbuf, rfl, hrun, hsplit.trans (by decide +kernel)⟩

end JitDt.Misclib
