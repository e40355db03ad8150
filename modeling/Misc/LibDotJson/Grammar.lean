import Misc.LibDotJson.JParser

namespace Misc.LibDotJson
set_option autoImplicit true

/-! ## JSON values -/

def Space (u : Str) : Prop := ∀ c ∈ u, isWhiteSpace c = true

def hexValue (c : UInt16) : Option Nat :=
  if 48 ≤ c.toNat ∧ c.toNat ≤ 57 then some (c.toNat - 48)
  else if 65 ≤ c.toNat ∧ c.toNat ≤ 70 then some (c.toNat - 55)
  else if 97 ≤ c.toNat ∧ c.toNat ≤ 102 then some (c.toNat - 87)
  else none

/-- The escapes of one character and what they denote. -/
def escapes : List (UInt16 × UInt16) :=
  [(ch '"', ch '"'), (ch '\\', ch '\\'), (ch '/', ch '/'), (ch 'b', 8), (ch 'f', 12),
    (ch 'n', 10), (ch 'r', 13), (ch 't', 9)]

def unit (x₁ x₂ x₃ x₄ : Nat) : UInt16 := UInt16.ofNat (((x₁ * 16 + x₂) * 16 + x₃) * 16 + x₄)

/-- What stands between the quotes of a string, and the characters that it denotes. -/
inductive StrBody : Str → Str → Prop
  | nil : StrBody [] []
  | plain : c ≠ ch '"' → c ≠ ch '\\' → StrBody b s → StrBody (c :: b) (c :: s)
  | escape : (e, c) ∈ escapes → StrBody b s → StrBody (ch '\\' :: e :: b) (c :: s)
  | unicode : hexValue c₁ = some x₁ → hexValue c₂ = some x₂ → hexValue c₃ = some x₃ →
      hexValue c₄ = some x₄ → StrBody b s →
      StrBody (ch '\\' :: ch 'u' :: c₁ :: c₂ :: c₃ :: c₄ :: b) (unit x₁ x₂ x₃ x₄ :: s)

def IsString (b s : Str) : Prop := ∃ t, StrBody t s ∧ b = quoted t

/-- The character can be the first one of a number. -/
def StartsNumber (c : UInt16) : Prop := isDigit c = true ∨ c = ch '-'

def IsWord (word w : Str) : Prop := w.map toUpper = word

section

variable {F : Type} [Single F]

/-- A text that `parseNumber` reads to its end. -/
def IsNumber (b : Str) (x : JNode F) : Prop :=
  (∃ c t, b = c :: t ∧ StartsNumber c) ∧ parseNumber b = .ok (b.length, some x)

/-- The object of some members: of those with the same key, the last gives the value. -/
def JObject.ofMembers (ms : List (Str × JNode F)) : List (Str × JNode F) :=
  ms.foldl (fun pairs m => JObject.set pairs m.1 m.2) []

mutual

inductive IsValue : Str → JNode F → Prop
  | null : IsWord [ch 'N', ch 'U', ch 'L', ch 'L'] b → IsValue b .null
  | false : IsWord [ch 'F', ch 'A', ch 'L', ch 'S', ch 'E'] b → IsValue b .false
  | true : IsWord [ch 'T', ch 'R', ch 'U', ch 'E'] b → IsValue b .true
  | number : IsNumber b x → IsValue b x
  | string : IsString b s → IsValue b (.string s)
  | emptyArray : Space u → IsValue (ch '[' :: (u ++ [ch ']'])) (.array [])
  | array : IsElements b xs → IsValue (ch '[' :: (b ++ [ch ']'])) (.array xs)
  | emptyObject : Space u → IsValue (ch '{' :: (u ++ [ch '}'])) (.object [])
  | object : IsMembers b ms →
      IsValue (ch '{' :: (b ++ [ch '}'])) (.object (JObject.ofMembers ms))

inductive IsElements : Str → List (JNode F) → Prop
  | one : Space u → IsValue b x → Space v → IsElements (u ++ (b ++ v)) [x]
  | cons : Space u → IsValue b x → Space v → IsElements b' xs →
      IsElements (u ++ (b ++ (v ++ ch ',' :: b'))) (x :: xs)

inductive IsMembers : Str → List (Str × JNode F) → Prop
  | one : Space u → IsString k s → Space w → Space y → IsValue b x → Space v →
      IsMembers (u ++ (k ++ (w ++ ch ':' :: (y ++ (b ++ v))))) [(s, x)]
  | cons : Space u → IsString k s → Space w → Space y → IsValue b x → Space v →
      IsMembers b' ms →
      IsMembers (u ++ (k ++ (w ++ ch ':' :: (y ++ (b ++ (v ++ ch ',' :: b')))))) ((s, x) :: ms)

end

/-- A value with white space around it. -/
def IsText (json : Str) (x : JNode F) : Prop :=
  ∃ u b v, Space u ∧ IsValue b x ∧ Space v ∧ json = u ++ (b ++ v)

/-- `Parse` does not throw; it returns true exactly for a JSON text, and then `Root` is its
tree. -/
def Decides (d : DotJson F) (json : Str) : Prop :=
  ∃ result d', d.Parse json = .ok (result, d') ∧
    (result = true ↔ ∃ x : JNode F, IsText json x) ∧ ∀ x, IsText json x → d'.Root = some x

end

/-! ## What the parser reads -/

/-- A text that departs from the letters of a word before it ends. -/
inductive Misspelt : Str → Str → Prop
  | here : toUpper c ≠ l → Misspelt (l :: ls) (c :: t)
  | there : toUpper c = l → Misspelt ls t → Misspelt (l :: ls) (c :: t)

/-- The words behind their first letter. -/
def words : List (UInt16 × Str) :=
  [(ch 'N', [ch 'U', ch 'L', ch 'L']), (ch 'F', [ch 'A', ch 'L', ch 'S', ch 'E']),
    (ch 'T', [ch 'R', ch 'U', ch 'E'])]

def starters : Str :=
  [ch '{', ch '[', ch '"', ch 'N', ch 'n', ch 'F', ch 'f', ch 'T', ch 't']

/-- A character that starts no value and is no white space. -/
def StartsNothing (c : UInt16) : Prop :=
  c ∉ starters ∧ isWhiteSpace c = false ∧ ¬ StartsNumber c

/-- A text with no value at its front, nor what could have been one. -/
inductive Unread : Str → Prop
  | other : StartsNothing c → Unread (c :: t)
  | word : (toUpper c, ls) ∈ words → Misspelt ls t → Unread (c :: t)

/-- The rest of a string that has no end, or an escape that is none. -/
inductive BadBody : Str → Prop
  | nil : BadBody []
  | plain : c ≠ ch '"' → c ≠ ch '\\' → BadBody t → BadBody (c :: t)
  | escape : (e, c) ∈ escapes → BadBody t → BadBody (ch '\\' :: e :: t)
  | unicode : hexValue c₁ = some x₁ → hexValue c₂ = some x₂ → hexValue c₃ = some x₃ →
      hexValue c₄ = some x₄ → BadBody t →
      BadBody (ch '\\' :: ch 'u' :: c₁ :: c₂ :: c₃ :: c₄ :: t)
  | letter : (∀ x ∈ escapes, x.1 ≠ e) → e ≠ ch 'u' → BadBody (ch '\\' :: e :: t)
  | digit : ds.length < 4 → (∀ d ∈ ds, (hexValue d).isSome) → hexValue c = none →
      BadBody (ch '\\' :: ch 'u' :: (ds ++ c :: t))

section

variable {F : Type} [Single F]

mutual

/-- A value at the front of a text, and what follows it. A container is read with its loop: a
value where none is expected is passed over. -/
inductive Reads : Str → JNode F → Str → Prop
  | null : IsWord [ch 'N', ch 'U', ch 'L', ch 'L'] w → Reads (w ++ r) .null r
  | false : IsWord [ch 'F', ch 'A', ch 'L', ch 'S', ch 'E'] w → Reads (w ++ r) .false r
  | true : IsWord [ch 'T', ch 'R', ch 'U', ch 'E'] w → Reads (w ++ r) .true r
  | number : StartsNumber c → parseNumber (c :: t) = .ok (n, some x) →
      Reads (c :: t) x ((c :: t).drop n.toNat)
  | string : IsString b s → Reads (b ++ r) (.string s) r
  | array : ReadsIn (.array []) 0 t frame r → Reads (ch '[' :: t) frame.node r
  | object : ReadsIn (.object [] []) 0 t frame r → Reads (ch '{' :: t) frame.node r

/-- The rest of a container, from a turn of its loop on. -/
inductive ReadsIn : Frame F → Nat → Str → Frame F → Str → Prop
  | close : step ∈ frame.closing → ReadsIn frame step (frame.closer :: r) frame r
  | separator : (c, step, next) ∈ frame.separators → ReadsIn frame next t frame' r →
      ReadsIn frame step (c :: t) frame' r
  | space : isWhiteSpace c = true → ReadsIn frame step t frame' r →
      ReadsIn frame step (c :: t) frame' r
  | value : Reads t x t' → frame.accept step x = some (next, frame₁) →
      ReadsIn frame₁ next t' frame' r → ReadsIn frame step t frame' r

end

mutual

/-- A text with a value at its front that is broken. -/
inductive Refuses (F : Type) [Single F] : Str → Prop
  | number : StartsNumber c → parseNumber (F := F) (c :: t) = .ok (-1, none) → Refuses F (c :: t)
  | string : BadBody t → Refuses F (ch '"' :: t)
  | array : RefusesIn F (.array []) 0 t → Refuses F (ch '[' :: t)
  | object : RefusesIn F (.object [] []) 0 t → Refuses F (ch '{' :: t)

/-- A container whose rest, from a turn of its loop on, is broken. -/
inductive RefusesIn (F : Type) [Single F] : Frame F → Nat → Str → Prop
  | nil : RefusesIn F frame step []
  | separator : (c, needed, next) ∈ frame.separators → step ≠ needed →
      RefusesIn F frame step (c :: t)
  | next : (c, step, next) ∈ frame.separators → t ≠ [] → RefusesIn F frame next t →
      RefusesIn F frame step (c :: t)
  | space : isWhiteSpace c = true → t ≠ [] → RefusesIn F frame step t →
      RefusesIn F frame step (c :: t)
  | value : Reads t x t' → frame.accept step x = some (next, frame') →
      RefusesIn F frame' next t' → RefusesIn F frame step t
  | key : Reads t x t' → frame.accept step x = none → RefusesIn F frame step t
  | broken : Refuses F t → RefusesIn F frame step t
  | unread : Unread (c :: t) → (∀ s ∈ frame.separators, s.1 ≠ c) →
      (c = frame.closer → step ∉ frame.closing) → RefusesIn F frame step (c :: t)

end

end

end Misc.LibDotJson
