import Mathlib.Data.Nat.Digits.Defs
import Mathlib.Tactic.SplitIfs

namespace Misc.LibDotJson
set_option autoImplicit true

/-- A `string` or a `char[]`, or what is left of it from a position on. -/
abbrev Str := List UInt16

/-- The code unit of a character. -/
def ch (c : Char) : UInt16 := UInt16.ofNat c.toNat

/-- What the parser and the printer take from `System.Single`. -/
class Single (F : Type) where
  TryParse : Str → Option F
  toString : F → Str

/-- `JNode` and its derived classes, a constructor for each `Type`. -/
inductive JNode (F : Type)
  | null
  | false
  | true
  | int (value : Int32)
  | float (value : F)
  | string (value : Str)
  | array (values : List (JNode F))
  | object (pairs : List (Str × JNode F))

namespace JObject

variable {F : Type}

def find : List (Str × JNode F) → Str → Option Nat
  | [], _ => none
  | (k, _) :: pairs, key => if k = key then some 0 else (find pairs key).map (· + 1)

def get (pairs : List (Str × JNode F)) (key : Str) : Option (JNode F) :=
  match find pairs key with
  | some i => pairs[i]?.map Prod.snd
  | none => none

def set (pairs : List (Str × JNode F)) (key : Str) (value : JNode F) : List (Str × JNode F) :=
  match find pairs key with
  | some i => pairs.modify i fun pair => (pair.1, value)
  | none => pairs ++ [(key, value)]

theorem set_nil (key : Str) (value : JNode F) : set [] key value = [(key, value)] :=
  rfl

theorem set_cons (pair : Str × JNode F) (pairs : List (Str × JNode F)) (key : Str)
    (value : JNode F) : set (pair :: pairs) key value =
      if pair.1 = key then (pair.1, value) :: pairs else pair :: set pairs key value := by
  rw [set, find, set]
  split_ifs with h
  · rfl
  · cases find pairs key <;> rfl

theorem get_cons (pair : Str × JNode F) (pairs : List (Str × JNode F)) (key : Str) :
    get (pair :: pairs) key = if pair.1 = key then some pair.2 else get pairs key := by
  rw [get, find, get]
  split_ifs with h
  · rfl
  · cases find pairs key <;> rfl

theorem get_set (pairs : List (Str × JNode F)) (key k : Str) (value : JNode F) :
    get (set pairs key value) k = if key = k then some value else get pairs k := by
  induction pairs with
  | nil => rw [set_nil, get_cons]
  | cons pair pairs ih =>
    rw [set_cons]
    by_cases h : pair.1 = key
    · subst h
      rw [if_pos rfl, get_cons, get_cons]
      split_ifs <;> rfl
    · rw [if_neg h, get_cons, get_cons, ih]
      split_ifs with hk hk'
      · exact absurd (hk.trans hk'.symm) h
      · rfl
      · rfl
      · rfl

theorem set_new {pairs : List (Str × JNode F)} {key : Str} (h : ∀ pair ∈ pairs, pair.1 ≠ key)
    (value : JNode F) : set pairs key value = pairs ++ [(key, value)] := by
  induction pairs with
  | nil => exact set_nil key value
  | cons pair pairs ih =>
    rw [set_cons, if_neg (h _ List.mem_cons_self), ih fun q hq =>
      h q (List.mem_cons_of_mem _ hq), List.cons_append]

end JObject

/-! ## `ToString` -/

def digit (d : Nat) : UInt16 := UInt16.ofNat (48 + d)

def natToString (n : Nat) : Str :=
  if n = 0 then [ch '0'] else (Nat.digits 10 n).reverse.map digit

/-- `Convert.ToString` of an `int`. -/
def intToString (i : Int32) : Str :=
  if i.toInt < 0 then ch '-' :: natToString i.toInt.natAbs else natToString i.toInt.natAbs

def quoted (s : Str) : Str := ch '"' :: (s ++ [ch '"'])

/-- The `,` behind a member, if another one follows. -/
def comma (rest : List α) : Str := if rest.isEmpty then [] else [ch ',']

section

variable {F : Type} [Single F]

mutual

def JNode.toString : JNode F → Str
  | .null => [ch 'n', ch 'u', ch 'l', ch 'l']
  | .false => [ch 'f', ch 'a', ch 'l', ch 's', ch 'e']
  | .true => [ch 't', ch 'r', ch 'u', ch 'e']
  | .int i => intToString i
  | .float f => Single.toString f
  | .string s => quoted s
  | .array xs => ch '[' :: (JArray.elements xs ++ [ch ']'])
  | .object ps => ch '{' :: (JObject.members ps ++ [ch '}'])

def JArray.elements : List (JNode F) → Str
  | [] => []
  | x :: xs => x.toString ++ (comma xs ++ JArray.elements xs)

def JObject.members : List (Str × JNode F) → Str
  | [] => []
  | p :: ps => quoted p.1 ++ ch ':' :: (p.2.toString ++ (comma ps ++ JObject.members ps))

end

end

end Misc.LibDotJson
