import Misc.Dotjson.Table

namespace Misc.Dotjson
set_option autoImplicit true

/-- `struct dotj_node` with what each `DOTJ_NODETYPE` keeps behind it. The two Booleans share a
constructor. -/
inductive Node
  | null
  | bool (b : Bool)
  | number (raw : List UInt8)
  | string (len : Nat) (s : List UInt8)
  | object (o : Table Node)
  | array (a : Items Node)

/-- What the decoders return, with the node stored through `pnode` if one is stored. -/
abbrev Decoded := Nat × Option Node

section
variable (skip : Ptr → Ptr)

/-- The decoders take `IGNORE_CHARS` as `skip`: what it is depends on the build. -/
def decodeString (s : Ptr) : Decoded :=
  let p := skip s
  match unescapeStr p 0 with
  | none => (0, none)
  | some (_, len, _) =>
    match unescapeStr p len with
    | none => (0, none)
    | some (n, len, w) => (s.length - p.length + n, some (.string len (w.bytes len)))

def isSign (c : UInt8) : Bool := c == ch '+' || c == ch '-'

def isDigit (c : UInt8) : Bool := ch '0' ≤ c && c ≤ ch '9'

/-- The label `num_exp`. -/
def numExp (p : Ptr) : Ptr := if isSign (byteAt p 0) then p.drop 1 else p

/-- The change of `state` after a digit. -/
def digitState (state : Nat) : Nat :=
  if state = 0 then 1 else if state = 2 then 3 else if state = 4 then 5 else state

def numDigits : Nat → Ptr → Nat × Ptr
  | state, [] => (state, [])
  | state, c :: p => if isDigit c then numDigits (digitState state) p else (state, c :: p)

/-- The label `num_frac` and what follows it; the first argument bounds the jumps back, of which
there are at most two. -/
def numFrac : Nat → Nat → Ptr → Nat × Ptr
  | 0, state, p => (state, p)
  | k + 1, state, p =>
    let r := numDigits state p
    if r.1 = 1 ∧ byteAt r.2 0 = ch '.' then numFrac k 2 (r.2.drop 1)
    else if (r.1 = 1 ∨ r.1 = 3) ∧ (byteAt r.2 0 = ch 'E' ∨ byteAt r.2 0 = ch 'e') then
      numFrac k 4 (numExp (r.2.drop 1))
    else r

def decodeNumber (s : Ptr) : Decoded :=
  let b := skip s
  let r := numFrac 3 0 (numExp b)
  if r.1 % 2 = 0 then (0, none)
  else (s.length - r.2.length, some (.number (b.take (b.length - r.2.length))))

/-- The states 0 to 3 of `decode_array`; `node` is the value read and not yet stored. -/
inductive ArrayState
  | start
  | value
  | next (node : Node)
  | done

/-- The states 0 to 5 of `decode_object`, each with the entry under construction. -/
inductive ObjectState
  | start
  | key
  | colon (entry : Key)
  | value (entry : Key)
  | next (entry : Entry Node)
  | done

/-- State 1 of `decode_object` at a quote: the entry, and what is left of the text behind it. -/
def decodeKey (p : Ptr) : Option (Key × Ptr) :=
  match unescapeStr p 0 with
  | none => none
  | some (_, len, _) =>
    match unescapeStr p len with
    | none => none
    | some (n, len, w) => some (⟨hash (w.bytes len), len, w.bytes len⟩, p.drop n)

def arrayResult (s : Ptr) : Option (Ptr × Items Node) → Decoded
  | none => (0, none)
  | some (p, array) => (s.length - p.length, some (.array array))

def objectResult (s : Ptr) : Option (Ptr × Table Node) → Decoded
  | none => (0, none)
  | some (p, object) => (s.length - p.length, some (.object object))

/-- The `case`s of `decode_node` for the three words. -/
def decodeWord (p : Ptr) : Decoded :=
  if byteAt p 0 = ch 'n' then
    if byteAt p 1 = ch 'u' ∧ byteAt p 2 = ch 'l' ∧ byteAt p 3 = ch 'l' then (4, some .null)
    else (0, none)
  else if byteAt p 0 = ch 'f' then
    if byteAt p 1 = ch 'a' ∧ byteAt p 2 = ch 'l' ∧ byteAt p 3 = ch 's' ∧ byteAt p 4 = ch 'e' then
      (5, some (.bool false))
    else (0, none)
  else if byteAt p 0 = ch 't' then
    if byteAt p 1 = ch 'r' ∧ byteAt p 2 = ch 'u' ∧ byteAt p 3 = ch 'e' then
      (4, some (.bool true))
    else (0, none)
  else (0, none)

mutual

/-- The first argument of each of these functions bounds the calls and the turns of the loops. -/
def decodeNode : Nat → Ptr → Decoded
  | 0, _ => (0, none)
  | k + 1, s =>
    let p := skip s
    let r :=
      if byteAt p 0 = ch '{' then decodeObject k p
      else if byteAt p 0 = ch '[' then decodeArray k p
      else if byteAt p 0 = ch '"' then decodeString skip p
      else if isDigit (byteAt p 0) || isSign (byteAt p 0) then decodeNumber skip p
      else decodeWord p
    (s.length - p.length + r.1, r.2)

def decodeArray : Nat → Ptr → Decoded
  | 0, _ => (0, none)
  | k + 1, s => arrayResult s (arrayLoop k .start none s)

/-- `while (*p && state != 3)`; `none` is an end of the loop in another state. -/
def arrayLoop : Nat → ArrayState → Option (Items Node) → Ptr → Option (Ptr × Items Node)
  | 0, _, _, _ => none
  | _ + 1, .done, array, p => array.map fun a => (p, a)
  | k + 1, state, array, s =>
    if byteAt s 0 = 0 then none
    else
      let p := skip s
      match state with
      | .start => if byteAt p 0 = ch '[' then arrayLoop k .value array (p.drop 1) else none
      | .value =>
        if byteAt p 0 = ch ']' then
          match array with
          | none => arrayLoop k .done (some (arrayGrow none)) (p.drop 1)
          | some _ => none
        else
          match decodeNode k p with
          | (0, _) => none
          | (n + 1, some node) => arrayLoop k (.next node) array (p.drop (n + 1))
          -- a count without a node: only skipped space is counted so, and none is left at `p`
          | (_ + 1, none) => none
      | .next node =>
        if byteAt p 0 = ch ',' then arrayLoop k .value (some (arrayAdd array node)) (p.drop 1)
        else if byteAt p 0 = ch ']' then
          arrayLoop k .done (some (arrayAdd array node)) (p.drop 1)
        else none
      | .done => none

def decodeObject : Nat → Ptr → Decoded
  | 0, _ => (0, none)
  | k + 1, s => objectResult s (objectLoop k .start none s)

/-- `while (*p && state != 5)`; `none` is an end of the loop in another state. -/
def objectLoop : Nat → ObjectState → Option (Table Node) → Ptr → Option (Ptr × Table Node)
  | 0, _, _, _ => none
  | _ + 1, .done, object, p => object.map fun o => (p, o)
  | k + 1, state, object, s =>
    if byteAt s 0 = 0 then none
    else
      let p := skip s
      match state with
      | .start => if byteAt p 0 = ch '{' then objectLoop k .key object (p.drop 1) else none
      | .key =>
        if byteAt p 0 = ch '"' then
          match decodeKey p with
          | none => none
          | some (entry, p) => objectLoop k (.colon entry) object p
        else if byteAt p 0 = ch '}' then
          match object with
          | none => objectLoop k .done (some (objectGrow none)) (p.drop 1)
          | some _ => none
        else none
      | .colon entry =>
        if byteAt p 0 = ch ':' then objectLoop k (.value entry) object (p.drop 1) else none
      | .value entry =>
        match decodeNode k p with
        | (0, _) => none
        | (n + 1, some val) => objectLoop k (.next { entry with val }) object (p.drop (n + 1))
        | (_ + 1, none) => none
      | .next entry =>
        if byteAt p 0 = ch ',' then objectLoop k .key (some (objectAdd object entry)) (p.drop 1)
        else if byteAt p 0 = ch '}' then
          objectLoop k .done (some (objectAdd object entry)) (p.drop 1)
        else none
      | .done => none

end

/-- Three calls or turns for each byte are enough. -/
def dotjsonDecodeBy (json : Ptr) : Decoded :=
  match decodeObject skip (3 * json.length + 1) json with
  | (n + 1, some (.object o)) => (n + 1, some (.object o))
  | (n + 1, some (.array a)) => (n + 1, some (.array a))
  | _ => (0, none)

end

section

-- generates the equations of the mutual block once, before the proofs that need them
attribute [local simp] decodeNode decodeArray arrayLoop decodeObject objectLoop

end

/-- The build without `DOTJSON_FEATURE_COMMENT`, in which `IGNORE_CHARS` is `IGNORE_SPACE`. -/
def dotjsonDecode (json : Ptr) : Decoded := dotjsonDecodeBy ignoreSpace json

end Misc.Dotjson
