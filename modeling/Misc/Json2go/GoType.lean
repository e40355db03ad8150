import Mathlib.Data.List.Basic

namespace Misc.Json2go
set_option autoImplicit true

/-- The tables of package `unicode`. -/
structure Unicode where
  IsLetter : Char → Bool
  IsDigit : Char → Bool
  IsSpace : Char → Bool
  ToTitle : Char → Char

variable (u : Unicode)

/-- `isSeparator` of package `strings`. -/
def isSeparator (r : Char) : Bool :=
  if r.toNat ≤ 0x7f then !(r.isAlphanum || r = '_')
  else if u.IsLetter r || u.IsDigit r then false
  else u.IsSpace r

def titleFrom : Char → List Char → List Char
  | _, [] => []
  | prev, r :: s => (if isSeparator u prev then u.ToTitle r else r) :: titleFrom r s

/-- `strings.Title`. -/
def Title (s : String) : String := String.ofList (titleFrom u ' ' s.toList)

def keywords : List String :=
  ["break", "case", "chan", "const", "continue", "default", "defer",
    "else", "fallthrough", "for",
    "func", "go", "goto", "if", "import", "interface", "map", "package", "range", "return",
    "select", "struct", "switch", "type", "var"]

def isLetter (r : Char) : Bool := u.IsLetter r || r = '_'

/-- `identifier = letter { letter | unicode_digit }`, and no keyword. -/
def isIdentifier (s : String) : Bool :=
  !keywords.contains s &&
    match s.toList with
    | [] => false
    | r :: rs => isLetter u r && rs.all fun c => isLetter u c || u.IsDigit c

structure Identifier where
  text : String
  ok : isIdentifier u text = true

/-- What stands between the back quotes of a raw string. -/
structure RawString where
  text : String
  ok : '`' ∉ text.toList

inductive Basic
  | string
  | bool
  | int
  | float64
  deriving DecidableEq, Repr

/-- The syntax of a type expression: each field of a struct has a name, a type and a tag. -/
inductive GoType
  | basic (b : Basic)
  | interface
  | slice (elem : GoType)
  | struct (fields : List (Identifier u × GoType × RawString))

variable {u}

def Basic.text : Basic → String
  | .string => "string"
  | .bool => "bool"
  | .int => "int"
  | .float64 => "float64"

/-- Fields of one struct can have these names: no two are the same, unless they are blank. -/
def Distinct (names : List String) : Prop := names.Pairwise fun a b => a = b → a = "_"

instance (names : List String) : Decidable (Distinct names) :=
  inferInstanceAs (Decidable (names.Pairwise _))

mutual

/-- No struct declares a field twice. -/
def GoType.Legal : GoType u → Prop
  | .basic _ | .interface => True
  | .slice elem => elem.Legal
  | .struct fields => Distinct (fields.map fun f => f.1.text) ∧ fieldsLegal fields

def fieldsLegal : List (Identifier u × GoType u × RawString) → Prop
  | [] => True
  | (_, type, _) :: fields => type.Legal ∧ fieldsLegal fields

end

variable (u) in
structure TypeExpr where
  type : GoType u
  legal : type.Legal

mutual

/-- The text of a type expression whose first line is indented by `indent`. -/
def GoType.text (indent : String) : GoType u → String
  | .basic b => b.text
  | .interface => "interface\x7b\x7d"
  | .slice elem => "[]" ++ elem.text indent
  | .struct fields => "struct \x7b\n" ++ fieldsText (indent ++ "\t") fields ++ indent ++ "\x7d"

def fieldsText (indent : String) : List (Identifier u × GoType u × RawString) → String
  | [] => ""
  | (name, type, tag) :: fields =>
    indent ++ name.text ++ " " ++ type.text indent ++ " `" ++ tag.text ++ "`\n" ++
      fieldsText indent fields

end

end Misc.Json2go
