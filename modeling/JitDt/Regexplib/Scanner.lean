import JitDt.Kwatcher.Mkhist

/-!
# The scanner of the configuration file

`gettoken` reads the file through `getc`. The variable that receives a character is a
plain `char`, so the byte 255 and the end of the file look alike; whether both look like
`EOF` depends on the sign of `char`, which is a parameter. The functions of ctype.h are
those of the C locale. `none` stands for a call that never returns.
-/

namespace JitDt.Regexplib

set_option autoImplicit false

open Kwatcher (isspace atoll)

def strLen : Nat := 128

def ascii (s : String) : List UInt8 := s.toList.map Char.toUInt8

/-! ## Characters -/

def isalpha (b : UInt8) : Bool := (65 ≤ b && b ≤ 90) || (97 ≤ b && b ≤ 122)

def isdigit (b : UInt8) : Bool := 48 ≤ b && b ≤ 57

def isprint (b : UInt8) : Bool := 32 ≤ b && b ≤ 126

def isAlpha (ch : UInt8) : Bool := isalpha ch || ch = '-'.toUInt8 || ch = '_'.toUInt8

/-- `EOF` as a `char`. -/
def eof : UInt8 := 255

/-- `atoi` of glibc on the string in a buffer. -/
def atoi (b : List UInt8) : Int32 :=
  (atoll ⟨cstrOf b, fun h => by simpa using List.mem_takeWhile_imp h⟩).toInt32

def getc : List UInt8 → UInt8 × List UInt8
  | [] => (eof, [])
  | c :: s => (c, s)

/-! ## Tokens -/

inductive Key where
  | region
  | sync
  | fname
  | pattern
  | date
  | type
  | threshold
deriving DecidableEq

def key : List (List UInt8 × Key) :=
  [(ascii "region", .region), (ascii "sync", .sync), (ascii "fname", .fname),
    (ascii "pattern", .pattern), (ascii "date", .date), (ascii "type", .type),
    (ascii "threshold", .threshold)]

inductive Token where
  | errLen
  | errChr
  | int (val : Int32)
  | pos (val : Int32)
  | str
  | bgn
  | close
  | equ
  | key (k : Key)
deriving DecidableEq

/-- `tkn > TKN_OK`. -/
def Token.ok : Token → Bool
  | .errLen => false
  | .errChr => false
  | _ => true

/-- The rest of the file, the line counter, and the buffer of the caller. -/
structure Scan where
  input : List UInt8
  line : Nat
  str : List UInt8

/-! ## The functions -/

/-- `do { buf[i++] = ch; ch = getc(fp); } while (i < STR_LEN && p(ch))` with `k + 1` places
left in `buf`: what is stored, and `ch` afterwards. -/
def collectWhile (p : UInt8 → Bool) : Nat → UInt8 → List UInt8 → List UInt8 × UInt8 × List UInt8
  | 0, ch, s => ([ch], getc s)
  | k + 1, ch, s =>
    if p (getc s).1 then
      let (b, r) := collectWhile p k (getc s).1 (getc s).2
      (ch :: b, r)
    else ([ch], getc s)

/-- The next character of a string; a backslash is dropped. -/
def getChar (s : List UInt8) : UInt8 × List UInt8 :=
  if (getc s).1 = '\\'.toUInt8 then getc (getc s).2 else getc s

/-- The loop over a string with `k` places left in `buf`; the character that ends the
string is stored too. -/
def quoted : Nat → List UInt8 → List UInt8 × List UInt8
  | 0, s => ([], s)
  | k + 1, s =>
    let (ch, s') := getChar s
    if isprint ch && ch ≠ '"'.toUInt8 then
      let (b, r) := quoted k s'
      (ch :: b, r)
    else ([ch], s')

section Functions
variable (signed : Bool)

/-- `ungetc(ch, fp)` pushes nothing back if `ch` is `EOF`. -/
def ungetc (ch : UInt8) (s : List UInt8) : List UInt8 := if signed && ch = eof then s else ch :: s

/-- The flag tells that the loop over a comment is running. At the end of the file that
loop sees no `EOF` if `char` is unsigned. -/
def skipblank : Bool → Nat → List UInt8 → Option (UInt8 × List UInt8 × Nat)
  | false, line, [] => some (eof, [], line)
  | false, line, ch :: s =>
    if isspace ch then skipblank false (if ch = '\n'.toUInt8 then line + 1 else line) s
    else if ch = '#'.toUInt8 then skipblank true line s
    else some (ch, s, line)
  | true, line, [] => if signed then some (eof, [], line + 1) else none
  | true, line, ch :: s =>
    if ch = '\n'.toUInt8 || (signed && ch = eof) then skipblank false (line + 1) s
    else skipblank true line s

def wordToken (ch : UInt8) (s : Scan) : Token × Scan :=
  let (b, ch', input) := collectWhile (fun c => isAlpha c || isdigit c) (strLen - 1) ch s.input
  let s' := { s with input := ungetc signed ch' input }
  if b.length = strLen then (.errLen, s')
  else
    match key.lookup b with
    | some k => (.key k, s')
    | none => (.str, { s' with str := b })

/-- From the label `numhandling` on. -/
def numhandling (tktype : Int32 → Token) (ch : UInt8) (s : Scan) : Token × Scan :=
  let (b, ch', input) := collectWhile isdigit (strLen - 1) ch s.input
  if b.length = strLen then (.errLen, { s with input := input })
  else (tktype (atoi b), { s with input := ungetc signed ch' input })

def stringToken (s : Scan) : Token × Scan :=
  let (b, input) := quoted strLen s.input
  if b.length = strLen then (.errLen, { s with input := input })
  else (.str, { s with input := input, str := b.dropLast })

/-- The body of `gettoken`; `retry` is what a jump to that label does. -/
def gettokenBody (retry : Scan → Option (Token × Scan)) (s : Scan) : Option (Token × Scan) :=
  match skipblank signed false s.line s.input with
  | none => none
  | some (ch, input, line) =>
    let s' := { s with input := input, line := line }
    if isAlpha ch then some (wordToken signed ch s')
    else if isdigit ch then some (numhandling signed .int ch s')
    else if ch = '$'.toUInt8 then
      some (numhandling signed .pos (getc input).1 { s' with input := (getc input).2 })
    else if ch = ';'.toUInt8 then retry s'
    else if ch = '"'.toUInt8 then some (stringToken s')
    else if ch = '{'.toUInt8 then some (.bgn, s')
    else if ch = '}'.toUInt8 then some (.close, s')
    else if ch = '='.toUInt8 then some (.equ, s')
    else some (.errChr, s')

/-- `gettoken` with at most `k` jumps to `retry`. -/
def gettokenFrom : Nat → Scan → Option (Token × Scan)
  | 0 => gettokenBody signed fun _ => none
  | k + 1 => gettokenBody signed (gettokenFrom k)

/-- Every jump to `retry` has read a semicolon. -/
def gettoken (s : Scan) : Option (Token × Scan) := gettokenFrom signed s.input.length s

end Functions

end JitDt.Regexplib
