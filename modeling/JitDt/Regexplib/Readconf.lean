import JitDt.Regexplib.Scanner

/-!
# Reading the configuration file

`readconf` fills the static tables from the tokens of the file. Both loops over the items
of a block end without an error when `gettoken` fails; reading then goes on behind the
block. The tables start with zero bytes, and their strings never fill the arrays.
-/

namespace JitDt.Regexplib

set_option autoImplicit false

def maxConf : Nat := 40
def maxSyncfiles : Nat := 10

/-- The strings of `struct conf` that are ever written. -/
structure Conf where
  c_area : List UInt8
  c_pattern : List UInt8
  c_type : List UInt8
  c_date : List UInt8
  c_fnam : List UInt8
  c_thrh : List UInt8
deriving DecidableEq

def Conf.zero : Conf := ⟨[], [], [], [], [], []⟩

/-- The members that an item of a region may set. -/
inductive Member where
  | pattern
  | date
  | type
  | fnam
  | thrh
deriving DecidableEq

namespace Conf

def get (x : Conf) : Member → List UInt8
  | .pattern => x.c_pattern
  | .date => x.c_date
  | .type => x.c_type
  | .fnam => x.c_fnam
  | .thrh => x.c_thrh

def set (x : Conf) (s : List UInt8) : Member → Conf
  | .pattern => { x with c_pattern := s }
  | .date => { x with c_date := s }
  | .type => { x with c_type := s }
  | .fnam => { x with c_fnam := s }
  | .thrh => { x with c_thrh := s }

theorem ext_get {x y : Conf} (harea : x.c_area = y.c_area) (h : ∀ m, x.get m = y.get m) : x = y := by
  cases x
  cases y
  simp only at harea
  simp only [Conf.mk.injEq]
  exact ⟨harea, h .pattern, h .type, h .date, h .fnam, h .thrh⟩

@[simp] theorem set_area (x : Conf) (s : List UInt8) (m : Member) :
    (x.set s m).c_area = x.c_area := by
  cases m <;> rfl

theorem get_set (x : Conf) (s : List UInt8) (m m' : Member) :
    (x.set s m).get m' = if m' = m then s else x.get m' := by
  cases m <;> cases m' <;> rfl

end Conf

/-- The tables and the counts, which end up in `confent` and `syncent`. -/
structure Tables where
  conf : Nat → Conf
  synctype : Nat → List UInt8
  cent : Nat
  sent : Nat

namespace Tables

def zero : Tables := ⟨fun _ => .zero, fun _ => [], 0, 0⟩

def setArea (t : Tables) (s : List UInt8) : Tables :=
  { t with conf := Function.update t.conf t.cent { t.conf t.cent with c_area := s } }

def setMember (t : Tables) (s : List UInt8) (m : Member) : Tables :=
  { t with conf := Function.update t.conf t.cent ((t.conf t.cent).set s m) }

def endRegion (t : Tables) : Tables := { t with cent := t.cent + 1 }

def addSync (t : Tables) (s : List UInt8) : Tables :=
  { t with synctype := Function.update t.synctype t.sent s, sent := t.sent + 1 }

end Tables

inductive Fault where
  | cannotOpen
  | err1 (line : Nat)
  | err2 (line : Nat)
deriving DecidableEq

def Fault.message (fname : String) : Fault → String
  | .cannotOpen => s!"Cannot open a configuration file:{fname}\n"
  | .err1 line => s!"configuration: format error in line {line}\n"
  | .err2 line => s!"configuration: too many areas in line {line}\n"

/-- A computation that returns, exits with a message, or never ends. -/
abbrev Run := ExceptT Fault Option

def never {A : Type} : Run A := (none : Option (Except Fault A))

theorem bind_of_eq {A B : Type} {m : Run A} {a : A} {f : A → Run B} {r : Run B} (h : m = pure a)
    (hf : f a = r) : m >>= f = r := by
  rw [h, pure_bind, hf]

structure Parser where
  scan : Scan
  tables : Tables

namespace Parser

def err1 {A : Type} (p : Parser) : Run A := throw (.err1 p.scan.line)

def err2 {A : Type} (p : Parser) : Run A := throw (.err2 p.scan.line)

end Parser

section Functions
variable (signed : Bool)

def next (p : Parser) : Run (Token × Parser) :=
  match gettoken signed p.scan with
  | none => never
  | some (tkn, scan) => pure (tkn, { p with scan := scan })

/-- The macro `PARSE_KEYSTRING`. -/
def parse_keystring (m : Member) (p : Parser) : Run Parser := do
  let (tkn, p) ← next signed p
  let (ntkn, p) ← next signed p
  if tkn ≠ .equ ∧ ntkn ≠ .str then p.err1
  else pure { p with tables := p.tables.setMember p.scan.str m }

/-- The items of a region, at most `k` of them. -/
def regionItems : Nat → Parser → Run Parser
  | 0, _ => never
  | k + 1, p => do
    let (tkn, p) ← next signed p
    if tkn.ok then
      match tkn with
      | .close => pure { p with tables := p.tables.endRegion }
      | .key .pattern => parse_keystring signed .pattern p >>= regionItems k
      | .key .date => parse_keystring signed .date p >>= regionItems k
      | .key .type => parse_keystring signed .type p >>= regionItems k
      | .key .fname => parse_keystring signed .fnam p >>= regionItems k
      | .key .threshold => parse_keystring signed .thrh p >>= regionItems k
      | _ => p.err1
    else pure p

/-- The item of a `sync` block behind the keyword. -/
def syncItem (p : Parser) : Run Parser := do
  let (tkn, p) ← next signed p
  let (ntkn, p) ← next signed p
  if tkn ≠ .equ ∧ ntkn ≠ .str then p.err1
  else if maxSyncfiles ≤ p.tables.sent then p.err2
  else pure { p with tables := p.tables.addSync p.scan.str }

/-- The items of a `sync` block, at most `k` of them. -/
def syncItems : Nat → Parser → Run Parser
  | 0, _ => never
  | k + 1, p => do
    let (tkn, p) ← next signed p
    if tkn.ok then
      match tkn with
      | .close => pure p
      | .key .type => syncItem signed p >>= syncItems k
      | _ => p.err1
    else pure p

/-- A region behind its keyword. -/
def regionBlock (k : Nat) (p : Parser) : Run Parser := do
  if maxConf ≤ p.tables.cent then p.err2
  else
    let (tkn, p) ← next signed p
    let (ntkn, p) ← next signed p
    if tkn ≠ .str ∧ ntkn ≠ .bgn then p.err1
    else regionItems signed k { p with tables := p.tables.setArea p.scan.str }

/-- A `sync` block behind its keyword. -/
def syncBlock (k : Nat) (p : Parser) : Run Parser := do
  let (tkn, p) ← next signed p
  if tkn ≠ .bgn then p.err1
  else syncItems signed k p

/-- The blocks of the file, at most `k` of them and `n` items in each. -/
def blocks (n : Nat) : Nat → Parser → Run Parser
  | 0, _ => never
  | k + 1, p => do
    let (tkn, p) ← next signed p
    if tkn.ok then
      match tkn with
      | .key .region => regionBlock signed n p >>= blocks n k
      | .key .sync => syncBlock signed n p >>= blocks n k
      | _ => p.err1
    else pure p

/-- `readconf` on a file that cannot be opened or has a content; `buf` holds anything. -/
def readconf (file : Option (List UInt8)) (buf : List UInt8) : Run Tables :=
  match file with
  | none => throw .cannotOpen
  | some content => do
    let p ← blocks signed (content.length + 1) (content.length + 1) ⟨⟨content, 1, buf⟩, .zero⟩
    pure p.tables

end Functions

end JitDt.Regexplib
