import Misc.Dotjson.Decode

namespace Misc.Dotjson
set_option autoImplicit true

/-- A parse tree: numbers keep their lexeme, strings and names the bytes that they denote. -/
inductive Json
  | null
  | bool (b : Bool)
  | number (raw : List UInt8)
  | string (s : List UInt8)
  | object (ms : List (List UInt8 × Json))
  | array (ts : List Json)

def Space (b : List UInt8) : Prop := ∀ c ∈ b, isSpace c = true

/-- `[+-]?`. -/
def SignOpt (b : List UInt8) : Prop := b = [] ∨ ∃ c, isSign c = true ∧ b = [c]

/-- `D+`. -/
def Digits (b : List UInt8) : Prop := b ≠ [] ∧ ∀ c ∈ b, isDigit c = true

/-- `('.' D+)?`. -/
def FracOpt (b : List UInt8) : Prop := b = [] ∨ ∃ d, Digits d ∧ b = ch '.' :: d

/-- `([eE] [+-]? D+)?`. -/
def ExpOpt (b : List UInt8) : Prop :=
  b = [] ∨ ∃ e s d, (e = ch 'E' ∨ e = ch 'e') ∧ SignOpt s ∧ Digits d ∧ b = e :: (s ++ d)

def IsNumber (b : List UInt8) : Prop :=
  ∃ s i f e, SignOpt s ∧ Digits i ∧ FracOpt f ∧ ExpOpt e ∧ b = s ++ (i ++ (f ++ e))

def hexValue (c : UInt8) : Option Nat :=
  if 48 ≤ c.toNat ∧ c.toNat ≤ 57 then some (c.toNat - 48)
  else if 65 ≤ c.toNat ∧ c.toNat ≤ 70 then some (c.toNat - 55)
  else if 97 ≤ c.toNat ∧ c.toNat ≤ 102 then some (c.toNat - 87)
  else none

/-- The UTF-8 form of a code unit of `\uXXXX`; a surrogate is written like any other unit. -/
def utf8 (u : Nat) : List UInt8 :=
  if u < 0x80 then [UInt8.ofNat u]
  else if u < 0x800 then [UInt8.ofNat (0xc0 + u / 64), UInt8.ofNat (0x80 + u % 64)]
  else [UInt8.ofNat (0xe0 + u / 4096), UInt8.ofNat (0x80 + u / 64 % 64),
    UInt8.ofNat (0x80 + u % 64)]

/-- The escapes of one byte and what they denote. -/
def escapes : List (UInt8 × UInt8) :=
  [(ch '"', ch '"'), (ch '\\', ch '\\'), (ch '/', ch '/'), (ch 'b', 8), (ch 'f', 12),
    (ch 'n', 10), (ch 'r', 13), (ch 't', 9)]

/-- What stands between the quotes of a string, and the bytes that it denotes. -/
inductive StrBody : List UInt8 → List UInt8 → Prop
  | nil : StrBody [] []
  | plain : c ≠ 0 → c ≠ ch '"' → c ≠ ch '\\' → StrBody b s → StrBody (c :: b) (c :: s)
  | escape : (e, c) ∈ escapes → StrBody b s → StrBody (ch '\\' :: e :: b) (c :: s)
  | unicode : hexValue c₁ = some x₁ → hexValue c₂ = some x₂ → hexValue c₃ = some x₃ →
      hexValue c₄ = some x₄ → StrBody b s →
      StrBody (ch '\\' :: ch 'u' :: c₁ :: c₂ :: c₃ :: c₄ :: b)
        (utf8 (((x₁ * 16 + x₂) * 16 + x₃) * 16 + x₄) ++ s)

def IsString (b s : List UInt8) : Prop := ∃ t, StrBody t s ∧ b = ch '"' :: (t ++ [ch '"'])

mutual

inductive IsValue : List UInt8 → Json → Prop
  | null : IsValue [ch 'n', ch 'u', ch 'l', ch 'l'] .null
  | false : IsValue [ch 'f', ch 'a', ch 'l', ch 's', ch 'e'] (.bool false)
  | true : IsValue [ch 't', ch 'r', ch 'u', ch 'e'] (.bool true)
  | number : IsNumber b → IsValue b (.number b)
  | string : IsString b s → IsValue b (.string s)
  | object : IsObject b ms → IsValue b (.object ms)
  | array : IsArray b ts → IsValue b (.array ts)

inductive IsObject : List UInt8 → List (List UInt8 × Json) → Prop
  | empty : Space u → IsObject (ch '{' :: (u ++ [ch '}'])) []
  | members : IsMembers b ms → IsObject (ch '{' :: (b ++ [ch '}'])) ms

inductive IsMembers : List UInt8 → List (List UInt8 × Json) → Prop
  | one : IsMember b m → IsMembers b [m]
  | cons : IsMember b m → IsMembers b' ms → IsMembers (b ++ ch ',' :: b') (m :: ms)

inductive IsMember : List UInt8 → List UInt8 × Json → Prop
  | mk : Space u → IsString k s → Space v → IsElement x t →
      IsMember (u ++ (k ++ (v ++ ch ':' :: x))) (s, t)

inductive IsArray : List UInt8 → List Json → Prop
  | empty : Space u → IsArray (ch '[' :: (u ++ [ch ']'])) []
  | elements : IsElements b ts → IsArray (ch '[' :: (b ++ [ch ']'])) ts

inductive IsElements : List UInt8 → List Json → Prop
  | one : IsElement b t → IsElements b [t]
  | cons : IsElement b t → IsElements b' ts → IsElements (b ++ ch ',' :: b') (t :: ts)

/-- A value with space around it. -/
inductive IsElement : List UInt8 → Json → Prop
  | mk : Space u → IsValue x t → Space v → IsElement (u ++ (x ++ v)) t

end

def IsText (b : List UInt8) (ms : List (List UInt8 × Json)) : Prop :=
  ∃ u x, Space u ∧ IsObject x ms ∧ b = u ++ x

mutual

/-- Equality of trees in which the members of an object have no order. -/
inductive Json.Same : Json → Json → Prop
  | null : Same .null .null
  | bool : Same (.bool b) (.bool b)
  | number : Same (.number r) (.number r)
  | string : Same (.string s) (.string s)
  | object : SameMembers ms ms' → Same (.object ms) (.object ms')
  | array : SameElements ts ts' → Same (.array ts) (.array ts')

inductive Json.SameElements : List Json → List Json → Prop
  | nil : SameElements [] []
  | cons : Same t t' → SameElements ts ts' → SameElements (t :: ts) (t' :: ts')

inductive Json.SameMembers : List (List UInt8 × Json) → List (List UInt8 × Json) → Prop
  | nil : SameMembers [] []
  | cons : Same t t' → SameMembers ms ms' → SameMembers ((s, t) :: ms) ((s, t') :: ms')
  | swap : SameMembers (m :: m' :: ms) (m' :: m :: ms)
  | trans : SameMembers ms ms' → SameMembers ms' ms'' → SameMembers ms ms''

end

mutual

/-- The tree behind a node: the members of an object are the entries in its slots. -/
def Node.view : Node → Json
  | .null => .null
  | .bool b => .bool b
  | .number raw => .number raw
  | .string len s => .string (s.take len)
  | .object ⟨_, _, es⟩ => .object (slotsView es)
  | .array ⟨_, _, xs⟩ => .array (itemsView xs)

def slotsView : List (Option (Entry Node)) → List (List UInt8 × Json)
  | [] => []
  | none :: es => slotsView es
  | some ⟨key, val⟩ :: es => (key.key.take key.keylen, val.view) :: slotsView es

def itemsView : List Node → List Json
  | [] => []
  | x :: xs => x.view :: itemsView xs

end

/-- The entry made for a name. -/
def Key.of (s : List UInt8) : Key := ⟨hash s, s.length, s⟩

mutual

/-- What the decoder builds for a parse tree. -/
def Json.build : Json → Node
  | .null => .null
  | .bool b => .bool b
  | .number raw => .number raw
  | .string s => .string s.length s
  | .object ms => .object ((buildMembers none ms).getD (objectGrow none))
  | .array ts => .array ((buildElements none ts).getD (arrayGrow none))

def buildMembers : Option (Table Node) → List (List UInt8 × Json) → Option (Table Node)
  | object, [] => object
  | object, (s, t) :: ms => buildMembers (some (objectAdd object ⟨.of s, t.build⟩)) ms

def buildElements : Option (Items Node) → List Json → Option (Items Node)
  | array, [] => array
  | array, t :: ts => buildElements (some (arrayAdd array t.build)) ts

end

end Misc.Dotjson
