import Misc.Json2go.GoType
import Misc.Json2go.Tokens

namespace Misc.Json2go
set_option autoImplicit true

inductive Err
  | EOF
  | new (text : String)
  deriving DecidableEq, Repr

def errInvalidDelim : Err := .new "invalid delim"
def errInvalidKey : Err := .new "invalid key"
def errInvalidType : Err := .new "invalid type"

/-- A `json.Decoder`: the tokens ahead, and the error that follows them. -/
structure Decoder where
  tokens : List Token
  err : Err

def Decoder.Token (dec : Decoder) : Except Err Token × Decoder :=
  match dec.tokens with
  | [] => (.error dec.err, dec)
  | t :: tokens => (.ok t, { dec with tokens })

/-- An `io.Writer` with states in `W`; an error that is `nil` is `none`. -/
structure Writer (W : Type) where
  Write : W → String → Option Err × W

structure Converter (W : Type) where
  dec : Decoder
  w : W
  indent : String

variable (u : Unicode) (out : Writer W)

def Converter.write (c : Converter W) (text : String) : Option Err × Converter W :=
  ((out.Write c.w text).1, { c with w := (out.Write c.w text).2 })

/-- A write whose error is dropped. -/
def Converter.put (c : Converter W) (text : String) : Converter W := (c.write out text).2

/-- `c.indent[:len(c.indent)-1]`, which ends in a tab. -/
def Converter.unindent (c : Converter W) : Converter W :=
  { c with indent := String.ofList c.indent.toList.dropLast }

/-- The loop of `nextArray`, with the brackets that are open. -/
def arrayLoop (err : Err) : List Token → Nat → Option Err × List Token
  | tokens, 0 => (none, tokens)
  | [], _ + 1 => (some err, [])
  | t :: tokens, deep + 1 =>
    if t = .Delim .openBracket then arrayLoop err tokens (deep + 2)
    else if t = .Delim .closeBracket then arrayLoop err tokens deep
    else arrayLoop err tokens (deep + 1)

mutual

/-- The error and the converter that the call leaves; `none` when `n` does not bound the
calls. -/
def nextType : Nat → Converter W → Option (Option Err × Converter W)
  | 0, _ => none
  | n + 1, c =>
    match c.dec.Token with
    | (.error err, _) => some (if err = .EOF then none else some err, c)
    | (.ok t, dec) =>
      let c := { c with dec }
      match t with
      | .Delim .openBrace => nextStruct n { c with indent := c.indent ++ "\t" }
      | .Delim .openBracket => nextArray n c
      | .Delim _ => some (some errInvalidDelim, c)
      | .string _ => some (c.write out "string")
      | .bool _ => some (c.write out "bool")
      | .Number v => some (c.write out (if '.' ∈ v.toList then "float64" else "int"))
      | .nil => some (c.write out "interface\x7b\x7d")
      | .float64 _ => some (some errInvalidType, c)

def nextStruct : Nat → Converter W → Option (Option Err × Converter W)
  | 0, _ => none
  | n + 1, c =>
    match c.write out "struct \x7b\n" with
    | (some err, c) => some (some err, c)
    | (none, c) => structLoop n "" c

/-- The loop of `nextStruct`: without a name in hand the next token is one, or closes the
struct. -/
def structLoop : Nat → String → Converter W → Option (Option Err × Converter W)
  | 0, _, _ => none
  | n + 1, keyname, c =>
    if keyname = "" then
      match c.dec.Token with
      | (.error err, _) => some (some err, c)
      | (.ok t, dec) =>
        let c := { c with dec }
        match t with
        | .Delim delim =>
          if delim ≠ .closeBrace then some (some errInvalidDelim, c)
          else
            let c := c.unindent
            some (none, c.put out (c.indent ++ "\x7d"))
        | .string key => structLoop n key (c.put out (c.indent ++ Title u key ++ " "))
        | _ => some (some errInvalidKey, c)
    else
      match nextType n c with
      | none => none
      | some (some err, c) => some (some err, c)
      | some (none, c) => structLoop n "" (c.put out (" `json:\"" ++ keyname ++ "\"`\n"))

def nextArray : Nat → Converter W → Option (Option Err × Converter W)
  | 0, _ => none
  | n + 1, c =>
    match c.write out "[]" with
    | (some err, c) => some (some err, c)
    | (none, c) =>
      match nextType n c with
      | none => none
      | some (some err, c) => some (some err, c)
      | some (none, c) =>
        let (err, tokens) := arrayLoop c.dec.err c.dec.tokens 1
        some (err, { c with dec := { c.dec with tokens } })

end

/-- The error of the conversion is dropped. -/
def json2go (n : Nat) (dec : Decoder) (w : W) (pkgname name : String) :
    Option (Option Err × W) :=
  let c : Converter W := ⟨dec, w, ""⟩
  let c := c.put out ("package " ++ pkgname ++ "\n")
  let c := c.put out "\n"
  let c := c.put out ("type " ++ name ++ " ")
  (nextType u out n c).map fun r => (none, r.2.w)

end Misc.Json2go
