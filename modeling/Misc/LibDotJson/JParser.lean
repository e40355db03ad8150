import Misc.LibDotJson.JNode

namespace Misc.LibDotJson
set_option autoImplicit true

inductive Thrown
  | indexOutOfRange
  deriving DecidableEq

abbrev Parsed (F : Type) := Except Thrown (Int × Option (JNode F))

/-! ## Characters -/

def inRanges (ranges : List (Nat × Nat)) (c : UInt16) : Bool :=
  ranges.any fun r => r.1 ≤ c.toNat && c.toNat ≤ r.2

def whiteSpaces : List (Nat × Nat) :=
  [(0x09, 0x0d), (0x20, 0x20), (0x85, 0x85), (0xa0, 0xa0), (0x1680, 0x1680), (0x2000, 0x200a),
    (0x2028, 0x2029), (0x202f, 0x202f), (0x205f, 0x205f), (0x3000, 0x3000)]

/-- The decimal digits of all scripts, as `Char.IsDigit` knows them. -/
def decimalDigits : List (Nat × Nat) :=
  [0x0030, 0x0660, 0x06f0, 0x07c0, 0x0966, 0x09e6, 0x0a66, 0x0ae6, 0x0b66,
    0x0be6, 0x0c66, 0x0ce6,
    0x0d66, 0x0de6, 0x0e50, 0x0ed0, 0x0f20, 0x1040, 0x1090, 0x17e0, 0x1810,
      0x1946, 0x19d0, 0x1a80,
    0x1a90, 0x1b50, 0x1bb0, 0x1c40, 0x1c50, 0xa620, 0xa8d0, 0xa900, 0xa9d0,
      0xa9f0, 0xaa50, 0xabf0,
    0xff10].map fun first => (first, first + 9)

def isWhiteSpace (c : UInt16) : Bool := inRanges whiteSpaces c

def isDigit (c : UInt16) : Bool := inRanges decimalDigits c

/-- `Char.ToUpper` with the casing of Windows, which leaves U+017F as it is, as far as a
comparison with a capital of ASCII can tell. -/
def toUpper (c : UInt16) : UInt16 := if 97 ≤ c.toNat ∧ c.toNat ≤ 122 then c - 32 else c

/-- Only the digits of ASCII count for `Int32.TryParse`. -/
def isAsciiDigit (c : UInt16) : Bool := 48 ≤ c.toNat && c.toNat ≤ 57

def asciiValue (s : Str) : Nat := s.foldl (fun n c => n * 10 + (c.toNat - 48)) 0

/-- The digits and the sign of a number. -/
def signed (s : Str) : Bool × Str :=
  match s with
  | [] => (false, [])
  | c :: t =>
    if c = ch '-' then (true, t) else if c = ch '+' then (false, t) else (false, c :: t)

/-- `Int32.TryParse`, of a text without white space. -/
def int32TryParse (s : Str) : Option Int32 :=
  let (negative, digits) := signed s
  let i : Int := if negative then -asciiValue digits else asciiValue digits
  if digits ≠ [] ∧ digits.all isAsciiDigit ∧ -2 ^ 31 ≤ i ∧ i < 2 ^ 31 then some (Int32.ofInt i)
  else none

/-! ## `parseNumber` -/

/-- The `while` loop: what is left of the text, or `none` for `return -1`. -/
def numberLoop (frac exp : Bool) : Str → Except Thrown (Option Str)
  | [] => .ok (some [])
  | c :: t =>
    if c = ch '.' then
      if frac then .ok none else numberLoop true exp t
    else if c = ch 'E' ∨ c = ch 'e' then
      if exp then .ok none
      else
        match t with
        | [] => .error .indexOutOfRange
        | s :: t =>
          if s = ch '+' ∨ s = ch '-' then numberLoop frac true t
            else numberLoop frac true (s :: t)
    else if isDigit c then numberLoop frac exp t
    else .ok (some (c :: t))

variable {F : Type}

section

variable [Single F]

/-- `Int32.TryParse`, and where it fails `Single.TryParse`. -/
def numberNode (number : Str) : Option (JNode F) :=
  match int32TryParse number with
  | some i => some (.int i)
  | none => (Single.TryParse number).map .float

def parseNumber (text : Str) : Parsed F :=
  match text with
  | [] => .error .indexOutOfRange
  | c :: t =>
    match numberLoop false false (if c = ch '-' then t else c :: t) with
    | .error e => .error e
    | .ok none => .ok (-1, none)
    | .ok (some rest) =>
      let length := text.length - rest.length
      match numberNode (text.take length) with
      | some node => .ok (length, some node)
      | none => .ok (-1, none)

end

/-! ## `parseString` -/

/-- The loop of `\u`, with the number of digits left to read: `u` and `length` after it. -/
def unicodeLoop : Nat → Nat → Nat → Str → Except Thrown (Nat × Nat)
  | 0, u, length, _ => .ok (u, length)
  | _ + 1, _, _, [] => .error .indexOutOfRange
  | i + 1, u, length, c :: t =>
    if ch '0' ≤ c ∧ c ≤ ch '9' then
      unicodeLoop i (u <<< 4 ||| (c.toNat &&& 0xf)) (length + 1) t
    else if (ch 'A' ≤ c ∧ c ≤ ch 'F') ∨ (ch 'a' ≤ c ∧ c ≤ ch 'f') then
      unicodeLoop i (u <<< 4 ||| ((c.toNat &&& 0xf) + 9)) (length + 1) t
    else .ok (u <<< 4, 0)

/-- The `switch` on the character behind a backslash: `escape` and `length`. -/
def parseEscape : Str → Except Thrown (UInt16 × Nat)
  | [] => .error .indexOutOfRange
  | e :: t =>
    if e = ch '"' then .ok (ch '"', 1)
    else if e = ch '\\' then .ok (ch '\\', 1)
    else if e = ch '/' then .ok (ch '/', 1)
    else if e = ch 'b' then .ok (8, 1)
    else if e = ch 'f' then .ok (12, 1)
    else if e = ch 'n' then .ok (10, 1)
    else if e = ch 'r' then .ok (13, 1)
    else if e = ch 't' then .ok (9, 1)
    else if e = ch 'u' then
      match unicodeLoop 4 0 1 t with
      | .error e => .error e
      | .ok (u, length) => .ok (UInt16.ofNat u, length)
    else .ok (0, 0)

/-- The `while` loop: `builder` and the text from the closing quote on, or `none` for `return
-1`. -/
def stringLoop (builder : Str) : Str → Except Thrown (Option (Str × Str))
  | [] => .ok none
  | c :: t =>
    if c = ch '"' then .ok (some (builder, c :: t))
    else if c = ch '\\' then
      match parseEscape t with
      | .error e => .error e
      | .ok (escape, length) =>
        if length = 0 then .ok none else stringLoop (builder ++ [escape]) (t.drop length)
    else stringLoop (builder ++ [c]) t
  termination_by text => text.length
  decreasing_by
    · simp only [List.length_drop, List.length_cons]
      omega
    · exact Nat.lt_succ_self _

def parseString (text : Str) : Parsed F :=
  match text with
  | [] => .error .indexOutOfRange
  | c :: t =>
    if c ≠ ch '"' then .ok (-1, none)
    else
      match stringLoop [] t with
      | .error e => .error e
      | .ok none => .ok (-1, none)
      | .ok (some (builder, p)) => .ok (text.length - p.length + 1, some (.string builder))

/-! ## `parseNode`, `parseArray` and `parseObject` -/

def letters : Str → Str → Except Thrown Bool
  | [], _ => .ok true
  | _ :: _, [] => .error .indexOutOfRange
  | l :: ls, c :: t => if toUpper c = l then letters ls t else .ok false

def parseWord (ls : Str) (node : JNode F) (t : Str) : Parsed F :=
  match letters ls t with
  | .error e => .error e
  | .ok b => .ok (if b then (ls.length + 1, some node) else (0, none))

/-- `while (Char.IsWhiteSpace(m_json[p])) p++`: how often `p` is increased. -/
def spaces : Str → Except Thrown Nat
  | [] => .error .indexOutOfRange
  | c :: t => if isWhiteSpace c then (spaces t).map (· + 1) else .ok 0

/-- The loops of `parseArray` and `parseObject` differ in what they build. `key` is `null` at
first, and is not read before it is set. -/
inductive Frame (F : Type)
  | array (jarray : List (JNode F))
  | object (key : Str) (jobject : List (Str × JNode F))

namespace Frame

/-- The separators with the step that each needs and the step behind it. -/
def separators : Frame F → List (UInt16 × Nat × Nat)
  | .array _ => [(ch ',', 2, 1)]
  | .object _ _ => [(ch ':', 2, 3), (ch ',', 4, 1)]

def closer : Frame F → UInt16
  | .array _ => ch ']'
  | .object _ _ => ch '}'

/-- The steps at which the closer may stand. -/
def closing : Frame F → List Nat
  | .array _ => [2, 0]
  | .object _ _ => [4, 0]

/-- The `if`s at the head of the loop: `step` and the text at `p` after them, or `none` for
`return -1`. -/
def separate (frame : Frame F) (step : Nat) (text : Str) : Option (Nat × Str) :=
  match text with
  | [] => some (step, [])
  | c :: t =>
    match frame.separators.find? fun s => s.1 = c with
    | none => some (step, c :: t)
    | some (_, needed, next) => if step = needed then some (next, t) else none

/-- The `switch (step)`: `none` for `return -1`. -/
def accept (frame : Frame F) (step : Nat) (jnode : JNode F) : Option (Nat × Frame F) :=
  match frame with
  | .array jarray =>
    if step = 0 ∨ step = 1 then some (2, .array (jarray ++ [jnode]))
      else some (step, .array jarray)
  | .object key jobject =>
    if step = 0 ∨ step = 1 then
      match jnode with
      | .string key => some (2, .object key jobject)
      | _ => none
    else if step = 3 then some (4, .object key (JObject.set jobject key jnode))
    else some (step, .object key jobject)

def node : Frame F → JNode F
  | .array jarray => .array jarray
  | .object _ jobject => .object jobject

theorem separate_length {frame : Frame F} (h : frame.separate step text = some (next, p)) :
    p.length ≤ text.length := by
  cases text with
  | nil =>
    cases h
    exact Nat.le_refl _
  | cons c t =>
    rw [separate] at h
    cases hf : frame.separators.find? fun s => s.1 = c with
    | none =>
      rw [hf] at h
      cases h
      exact Nat.le_refl _
    | some s =>
      rw [hf] at h
      dsimp only at h
      split_ifs at h
      cases h
      exact Nat.le_succ _

end Frame

def containerResult (start : Str) : Option (Str × Frame F) → Int × Option (JNode F)
  | none => (-1, none)
  | some (p, frame) => (start.length - p.length + 1, some frame.node)

section

variable [Single F]

mutual

def parseNode (text : Str) : Parsed F :=
  match text with
  | [] => .error .indexOutOfRange
  | c :: t =>
    if c = ch '{' then parseObject (c :: t)
    else if c = ch '[' then parseArray (c :: t)
    else if c = ch '"' then parseString (c :: t)
    else if c = ch 'N' ∨ c = ch 'n' then parseWord [ch 'U', ch 'L', ch 'L'] .null t
    else if c = ch 'F' ∨ c = ch 'f' then parseWord [ch 'A', ch 'L', ch 'S', ch 'E'] .false t
    else if c = ch 'T' ∨ c = ch 't' then parseWord [ch 'R', ch 'U', ch 'E'] .true t
    else if isWhiteSpace c then (spaces t).map fun n => (n + 1, none)
    else if isDigit c ∨ c = ch '-' then parseNumber (c :: t)
    else .ok (0, none)
  termination_by 3 * text.length + 1

def parseArray (text : Str) : Parsed F :=
  match text with
  | [] => .error .indexOutOfRange
  | c :: t =>
    if c ≠ ch '[' then .ok (-1, none)
    else (containerLoop (.array []) 0 t).map (containerResult (c :: t))
  termination_by 3 * text.length
  decreasing_by
    simp only [List.length_cons]
    omega

def parseObject (text : Str) : Parsed F :=
  match text with
  | [] => .error .indexOutOfRange
  | c :: t =>
    if c ≠ ch '{' then .ok (-1, none)
    else (containerLoop (.object [] []) 0 t).map (containerResult (c :: t))
  termination_by 3 * text.length
  decreasing_by
    simp only [List.length_cons]
    omega

/-- The `while` loop and the test behind it: the text at the closer and what has been built, or
`none` for `return -1`. -/
def containerLoop (frame : Frame F) (step : Nat) (text : Str) :
    Except Thrown (Option (Str × Frame F)) :=
  match text with
  | [] => .ok none
  | c :: t =>
    match _ : frame.separate step (c :: t) with
    | none => .ok none
    | some (step, p) =>
      match parseNode p with
      | .error e => .error e
      | .ok (length, jnode) =>
        match jnode.elim (some (step, frame)) (frame.accept step) with
        | none => .ok none
        | some (step, frame) =>
          if 0 < length then containerLoop frame step (p.drop length.toNat)
          else if length = 0 ∧ p.head? = some frame.closer ∧ step ∈ frame.closing then
            .ok (some (p, frame))
          else .ok none
  termination_by 3 * text.length + 2
  decreasing_by
    · have := Frame.separate_length ‹_›
      omega
    · have := Frame.separate_length ‹_›
      simp only [List.length_drop, List.length_cons] at this ⊢
      omega

end

end

structure DotJson (F : Type) where
  Root : Option (JNode F)

/-- `Parse(string)`: its result and the object after it. -/
def DotJson.Parse [Single F] (d : DotJson F) (json : Str) :
    Except Thrown (Bool × DotJson F) :=
  if json.length = 0 then .ok (false, d)
  else
    match parseNode json with
    | .error e => .error e
    | .ok (length, node) => .ok (length != -1, ⟨node⟩)

end Misc.LibDotJson
