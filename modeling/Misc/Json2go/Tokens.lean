import Mathlib.Data.List.Basic

namespace Misc.Json2go
set_option autoImplicit true

/-- `json.Delim`. -/
inductive Delim
  | openBracket
  | closeBracket
  | openBrace
  | closeBrace
  deriving DecidableEq, Repr

/-- `json.Token`: a number is a `json.Number` after `UseNumber`, else the bits of a `float64`. -/
inductive Token
  | Delim (v : Delim)
  | bool (v : Bool)
  | float64 (bits : UInt64)
  | Number (v : String)
  | string (v : String)
  | nil
  deriving DecidableEq, Repr

/-- A JSON value: a number keeps its text, an object its members in order. -/
inductive Json
  | null
  | bool (v : Bool)
  | number (v : String)
  | string (v : String)
  | array (vs : List Json)
  | object (ms : List (String × Json))

mutual

/-- The tokens that a decoder with `UseNumber` gives for a value; commas and colons are
elided. -/
def Json.tokens : Json → List Token
  | .null => [.nil]
  | .bool v => [.bool v]
  | .number v => [.Number v]
  | .string v => [.string v]
  | .array vs => .Delim .openBracket :: (elements vs ++ [.Delim .closeBracket])
  | .object ms => .Delim .openBrace :: (members ms ++ [.Delim .closeBrace])

def elements : List Json → List Token
  | [] => []
  | v :: vs => v.tokens ++ elements vs

def members : List (String × Json) → List Token
  | [] => []
  | (key, v) :: ms => .string key :: (v.tokens ++ members ms)

end

end Misc.Json2go
