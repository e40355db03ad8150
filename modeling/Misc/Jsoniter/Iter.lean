import Mathlib.Data.List.Basic

namespace Misc.Jsoniter
set_option autoImplicit true

inductive Err
  | unexpectedEOF
  | eof
  | error (pos : Nat) (reason : String)
  deriving DecidableEq, Repr

inductive Kind
  | invalid
  | null
  | false
  | true
  | number
  | string
  | opener
  | object
  | array
  | closer
  | closeObject
  | closeArray
  deriving DecidableEq, Repr

abbrev Token := Kind × List UInt8

@[simp] def ch (c : Char) : UInt8 := UInt8.ofNat c.toNat

def iswhitespace (c : UInt8) : Bool :=
  c == ch ' ' || c == ch '\n' || c == ch '\r' || c == ch '\t'

def isdigit (c : UInt8) : Bool := ch '0' ≤ c && c ≤ ch '9'

/-- The constants `expected` of `readvalue`. -/
def literal : Kind → List UInt8
  | .null => [ch 'n', ch 'u', ch 'l', ch 'l']
  | .true => [ch 't', ch 'r', ch 'u', ch 'e']
  | .false => [ch 'f', ch 'a', ch 'l', ch 's', ch 'e']
  | _ => []

def fmtC (c : UInt8) : String := String.singleton (Char.ofNat c.toNat)

/-- The number of bytes up to the first quote that is not right behind a backslash; `prev` is the
byte in front. -/
def scanString (prev : UInt8) : List UInt8 → Option Nat
  | [] => none
  | c :: cs =>
    if c = ch '"' ∧ prev ≠ ch '\\' then some 1 else (scanString c cs).map (· + 1)

/-- How the loop of `readnumber` ends: behind `n` bytes, at the end of the data, or at a byte
that should have been a digit. -/
inductive Scan
  | found (n : Nat)
  | eof
  | bad (c : UInt8)
  deriving DecidableEq, Repr

def Scan.add (k : Nat) : Scan → Scan
  | .found n => .found (n + k)
  | .eof => .eof
  | .bad c => .bad c

/-- The loop of `readnumber`; `digit` says that control is at the label `parsenum`, where a digit
has to follow. -/
def parsenum (digit isfrac isexp : Bool) : List UInt8 → Scan
  | [] => if digit then .eof else .found 0
  | c :: cs =>
    if isdigit c then (parsenum false isfrac isexp cs).add 1
    else if digit then .bad c
    else if !isfrac && c == ch '.' then (parsenum true true isexp cs).add 1
    else if !isexp && (c == ch 'e' || c == ch 'E') then
      match cs with
      | [] => .eof
      | s :: cs =>
        if s = ch '-' then (parsenum true true true cs).add 2
        else if isdigit s then (parsenum false true true cs).add 2
        else .bad s
    else .found 0

/-- `rest` is `data[i:]`; `top` has the top of the stack first. -/
structure Iter where
  rest : List UInt8
  i : Nat
  cur : Nat
  top : List Nat
  err : Option Err
  deriving DecidableEq, Repr

namespace Iter

def new (data : List UInt8) : Iter := ⟨data, 0, 0, [], none⟩

def eof (it : Iter) : Bool := it.rest.isEmpty

/-- `it.data[it.i]`, which is read in front of the end of the data only. -/
def peek (it : Iter) : UInt8 := it.rest.headD 0

def skip (it : Iter) (n : Nat) : Iter := { it with rest := it.rest.drop n, i := it.i + n }

def fail (it : Iter) (err : Err) : Iter × Token := ({ it with err := some err }, (.invalid, []))

def errorf (it : Iter) (reason : String) : Iter × Token := it.fail (.error it.i reason)

def part (it : Iter) (kind : Kind) (n : Nat) : Iter × Token :=
  (it.skip n, (kind, it.rest.take n))

/-- Moves behind the whitespace, and reports whether that is the end of the data. -/
def skipwhitespace (it : Iter) : Iter × Bool :=
  let it := it.skip (it.rest.takeWhile iswhitespace).length
  if it.eof then ({ it with err := some .unexpectedEOF }, true) else (it, false)

def readstring (it : Iter) : Iter × Token :=
  if it.peek ≠ ch '"' then it.errorf ("expect '\"', got " ++ fmtC it.peek)
  else
    match scanString it.peek it.rest.tail with
    | some n => it.part .string (n + 1)
    | none => it.fail .unexpectedEOF

def readnumber (it : Iter) : Iter × Token :=
  let i := if it.peek = ch '-' then 1 else 0
  match (parsenum true false false (it.rest.drop i)).add i with
  | .found n => it.part .number n
  | .eof => it.fail .unexpectedEOF
  | .bad c => it.errorf ("expect digit, got '" ++ fmtC c ++ "'")

def readliteral (it : Iter) (kind : Kind) : Iter × Token :=
  let expected := literal kind
  if it.rest.length < expected.length then it.fail .unexpectedEOF
  else
    match (expected.zip it.rest).find? fun p => p.2 != p.1 with
    | some (c, got) => it.errorf ("expect '" ++ fmtC c ++ "', got '" ++ fmtC got ++ "'")
    | none => it.part kind expected.length

def enter (it : Iter) (kind : Kind) (cur : Nat) : Iter × Token :=
  { it with cur, top := if it.cur = 0 then it.top else it.cur :: it.top }.part kind 1

def readvalue (it : Iter) : Iter × Token :=
  let c := it.peek
  if c = ch 'n' then it.readliteral .null
  else if c = ch 't' then it.readliteral .true
  else if c = ch 'f' then it.readliteral .false
  else if c = ch '"' then it.readstring
  else if c = ch '\x7b' then it.enter .object 3
  else if c = ch '[' then it.enter .array 1
  else if isdigit c || c == ch '-' then it.readnumber
  else it.errorf ("invalid character '" ++ fmtC c ++ "'")

def close (it : Iter) (kind : Kind) : Iter × Token :=
  match it.top with
  | c :: top => { it with cur := c, top }.part kind 1
  | [] => { it with cur := 0 }.part kind 1

/-- A separator is behind `it`; goes on with `k` at the next byte that is not whitespace. -/
def separated (it : Iter) (k : Iter → Iter × Token) : Iter × Token :=
  match (it.skip 1).skipwhitespace with
  | (it, true) => (it, (.invalid, []))
  | (it, false) => k it

/-- The `switch` on `cur` in `next`. -/
def state (it : Iter) : Iter × Token :=
  match it.cur with
  | 1 =>
    if it.peek = ch ']' then it.close .closeArray else { it with cur := 2 }.readvalue
  | 2 =>
    if it.peek = ch ',' then it.separated readvalue
    else if it.peek = ch ']' then it.close .closeArray
    else it.errorf ("expect ',' or ']', got '" ++ fmtC it.peek ++ "'")
  | 3 =>
    if it.peek = ch '\x7d' then it.close .closeObject else { it with cur := 4 }.readstring
  | 4 =>
    if it.peek = ch ':' then it.separated fun it => { it with cur := 5 }.readvalue
    else it.errorf ("expect ':', got '" ++ fmtC it.peek ++ "'")
  | 5 =>
    if it.peek = ch ',' then it.separated fun it => { it with cur := 4 }.readstring
    else if it.peek = ch '\x7d' then it.close .closeObject
    else it.errorf ("expect ',' or '\x7d', got " ++ fmtC it.peek)
  | _ => it.readvalue

def next (it : Iter) : Iter × Token :=
  if it.err.isSome then (it, (.invalid, []))
  else
    match it.skipwhitespace with
    | (it, true) => (if it.cur = 0 then { it with err := none } else it, (.invalid, []))
    | (it, false) => it.state

end Iter

def collect {σ : Type} (eof : σ → Bool) (next : σ → σ × Token) : Nat → σ → List Token × σ
  | 0, it => ([], it)
  | n + 1, it =>
    if eof it then ([], it)
    else
      match next it with
      | (it, (.invalid, _)) => ([], it)
      | (it, t) =>
        let r := collect eof next n it
        (t :: r.1, r.2)

def Iter.tokens (data : List UInt8) : List Token × Iter :=
  collect Iter.eof Iter.next data.length (.new data)

end Misc.Jsoniter
