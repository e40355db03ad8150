import Misc.Dotjson.Lexemes

namespace Misc.Dotjson
set_option autoImplicit true

/-- The `switch` of `encode_string`: the byte behind the backslash, if `ec` is set. -/
def escapeChar (c : UInt8) : Option UInt8 :=
  if c = ch '"' then some (ch '"')
  else if c = ch '\\' then some (ch '\\')
  else if c = ch '/' then some (ch '/')
  else if c = 0x08 then some (ch 'b')
  else if c = 0x0c then some (ch 'f')
  else if c = 0x0a then some (ch 'n')
  else if c = 0x0d then some (ch 'r')
  else if c = 0x09 then some (ch 't')
  else none

/-- `while (*p)`: the NUL may stand inside the string or behind it. -/
def encodeStringLoop (len : Nat) : List UInt8 → Nat → Writes → Nat × Writes
  | [], r, w => (r, w)
  | c :: p, r, w =>
    if c = 0 then (r, w)
    else
      match escapeChar c with
      | some e => encodeStringLoop len p (r + 2) (store len (r + 1) e (store len r (ch '\\') w))
      | none => encodeStringLoop len p (r + 1) (store len r c w)

def encodeString (s : List UInt8) (len : Nat) : Nat × Writes :=
  let x := encodeStringLoop len s 1 (store len 0 (ch '"') [])
  (x.1 + 1, store len x.1 (ch '"') x.2)

/-- A word or a number, which is copied as a whole or not at all. -/
def encodeWord (b : List UInt8) (len : Nat) : Nat × Writes :=
  (b.length, if len ≥ b.length then place 0 b else [])

/-- The name of a member, its quotes and the colon. -/
def encodeKey (key : Key) (len r : Nat) (w : Writes) : Nat × Writes :=
  let q := ch '"' :: (key.key.take key.keylen ++ [ch '"'])
  let w := if len ≥ r + 2 + key.keylen then w ++ place r q else w
  let r := r + 2 + key.keylen
  (r + 1, store len r (ch ':') w)

def encodeComma (empty : Bool) (len r : Nat) (w : Writes) : Nat × Writes :=
  if empty then (r, w) else (r + 1, store len r (ch ',') w)

mutual

/-- `encode_node`, with the stores made relative to `buf`. -/
def encodeNode : Node → Nat → Nat × Writes
  | .null, len => encodeWord [ch 'n', ch 'u', ch 'l', ch 'l'] len
  | .bool false, len => encodeWord [ch 'f', ch 'a', ch 'l', ch 's', ch 'e'] len
  | .bool true, len => encodeWord [ch 't', ch 'r', ch 'u', ch 'e'] len
  | .number raw, len => encodeWord (raw.takeWhile (· != 0)) len
  | .string _ s, len => encodeString s len
  | .object ⟨_, _, es⟩, len =>
    let x := encodeSlots es true len 1 (if len ≥ 1 then [(0, ch '{')] else [])
    (x.1 + 1, store len x.1 (ch '}') x.2)
  | .array ⟨_, _, xs⟩, len =>
    let x := encodeItems xs true len 1 (if len > 1 then [(0, ch '[')] else [])
    (x.1 + 1, store len x.1 (ch ']') x.2)

def encodeSlots : List (Option (Entry Node)) → Bool → Nat → Nat → Writes → Nat × Writes
  | [], _, _, r, w => (r, w)
  | none :: es, empty, len, r, w => encodeSlots es empty len r w
  | some ⟨key, val⟩ :: es, empty, len, r, w =>
    let x := encodeComma empty len r w
    let x := encodeKey key len x.1 x.2
    let y := encodeNode val (if len > x.1 then len - x.1 else 0)
    encodeSlots es false len (x.1 + y.1) (x.2 ++ y.2.shift x.1)

def encodeItems : List Node → Bool → Nat → Nat → Writes → Nat × Writes
  | [], _, _, r, w => (r, w)
  | x :: xs, empty, len, r, w =>
    let c := encodeComma empty len r w
    let y := encodeNode x (if len > c.1 then len - c.1 else 0)
    encodeItems xs false len (c.1 + y.1) (c.2 ++ y.2.shift c.1)

end

/-- `buf` says whether there is a buffer. -/
def dotjsonEncode (root : Node) (buf : Bool) (len : Nat) : Nat × Writes :=
  let x := encodeNode root (if buf ∧ len > 0 then len - 1 else 0)
  (x.1, if x.1 ≠ 0 ∧ buf ∧ len > x.1 then x.2 ++ [(x.1, 0)] else x.2)

/-! ## The text written -/

def escaped : List UInt8 → List UInt8
  | [] => []
  | c :: p =>
    if c = 0 then []
    else
      match escapeChar c with
      | some e => ch '\\' :: e :: escaped p
      | none => c :: escaped p

def comma (empty : Bool) : List UInt8 := if empty then [] else [ch ',']

def Key.text (key : Key) : List UInt8 :=
  ch '"' :: (key.key.take key.keylen ++ [ch '"', ch ':'])

mutual

def Node.text : Node → List UInt8
  | .null => [ch 'n', ch 'u', ch 'l', ch 'l']
  | .bool false => [ch 'f', ch 'a', ch 'l', ch 's', ch 'e']
  | .bool true => [ch 't', ch 'r', ch 'u', ch 'e']
  | .number raw => raw.takeWhile (· != 0)
  | .string _ s => ch '"' :: (escaped s ++ [ch '"'])
  | .object ⟨_, _, es⟩ => ch '{' :: (slotsText true es ++ [ch '}'])
  | .array ⟨_, _, xs⟩ => ch '[' :: (itemsText true xs ++ [ch ']'])

def slotsText : Bool → List (Option (Entry Node)) → List UInt8
  | _, [] => []
  | empty, none :: es => slotsText empty es
  | empty, some ⟨key, val⟩ :: es => comma empty ++ (key.text ++ (val.text ++ slotsText false es))

def itemsText : Bool → List Node → List UInt8
  | _, [] => []
  | empty, x :: xs => comma empty ++ (x.text ++ itemsText false xs)

end

/-- `x` continues a count `r` and stores `w` by the text `t`, which is stored if it fits. -/
def Writes.Adds (len r : Nat) (w : Writes) (t : List UInt8) (x : Nat × Writes) : Prop :=
  x.1 = r + t.length ∧ (r + t.length ≤ len → x.2 = w ++ place r t)

namespace Writes.Adds

theorem nil : Adds len r w [] (r, w) := ⟨rfl, fun _ => by simp [place]⟩

theorem trans (h : Adds len r w t x) (h' : Adds len x.1 x.2 t' y) :
    Adds len r w (t ++ t') y := by
  obtain ⟨hr, hw⟩ := h
  obtain ⟨hr', hw'⟩ := h'
  refine ⟨by rw [hr', hr, List.length_append, Nat.add_assoc], ?_⟩
  intro hl
  rw [List.length_append] at hl
  rw [hw' (by omega), hw (by omega), hr, place_append, List.append_assoc]

theorem store (len r : Nat) (w : Writes) (c : UInt8) :
    Adds len r w [c] (r + 1, Dotjson.store len r c w) := by
  refine ⟨rfl, ?_⟩
  intro hl
  rw [Dotjson.store, if_pos (show r < len from hl)]
  rfl

end Writes.Adds

theorem shift_place (r n : Nat) (t : List UInt8) :
    Writes.shift r (place n t) = place (r + n) t := by
  induction t generalizing n with
  | nil => rfl
  | cons c t ih =>
    rw [place, place, Writes.shift, List.map_cons]
    exact congrArg _ (ih (n + 1))

theorem Writes.Adds.call (h : Adds (if len > r then len - r else 0) 0 [] t x) :
    Adds len r w t (r + x.1, w ++ x.2.shift r) := by
  obtain ⟨hr, hw⟩ := h
  refine ⟨by rw [hr, Nat.zero_add], ?_⟩
  intro hl
  have hle : 0 + t.length ≤ if len > r then len - r else 0 := by split <;> omega
  rw [hw hle, List.nil_append, shift_place]
  rfl

theorem encodeStringLoop_adds (len : Nat) (s : List UInt8) (r : Nat) (w : Writes) :
    Writes.Adds len r w (escaped s) (encodeStringLoop len s r w) := by
  induction s generalizing r w with
  | nil => exact .nil
  | cons c s ih =>
    rw [encodeStringLoop, escaped]
    split
    · exact .nil
    · cases escapeChar c with
      | some e =>
        have h := (Writes.Adds.store len r w (ch '\\')).trans (.store len (r + 1) _ e)
        exact h.trans (ih _ _)
      | none => exact (Writes.Adds.store len r w c).trans (ih _ _)

theorem encodeString_adds (s : List UInt8) (len : Nat) :
    Writes.Adds len 0 [] (ch '"' :: (escaped s ++ [ch '"'])) (encodeString s len) :=
  ((Writes.Adds.store len 0 [] (ch '"')).trans (encodeStringLoop_adds len s _ _)).trans
    (.store len _ _ (ch '"'))

theorem encodeWord_adds (b : List UInt8) (len : Nat) :
    Writes.Adds len 0 [] b (encodeWord b len) := by
  refine ⟨(Nat.zero_add _).symm, ?_⟩
  intro hl
  rw [encodeWord, if_pos (by omega)]
  rfl

theorem encodeComma_adds (empty : Bool) (len r : Nat) (w : Writes) :
    Writes.Adds len r w (comma empty) (encodeComma empty len r w) := by
  cases empty
  · exact .store len r w (ch ',')
  · exact .nil

theorem encodeKey_adds (key : Key) (hk : key.key.length = key.keylen)
    (len r : Nat) (w : Writes) : Writes.Adds len r w key.text (encodeKey key len r w) := by
  have htake : key.key.take key.keylen = key.key := hk ▸ List.take_length
  have h : Writes.Adds len r w (ch '"' :: (key.key ++ [ch '"'])) (r + 2 + key.keylen,
      if len ≥ r + 2 + key.keylen then w ++ place r (ch '"' :: (key.key ++ [ch '"']))
        else w) := by
    have hlen : (ch '"' :: (key.key ++ [ch '"'])).length = 2 + key.keylen := by
      simp [hk]
      omega
    refine ⟨by rw [hlen, Nat.add_assoc], ?_⟩
    intro hl
    rw [hlen] at hl
    rw [if_pos (by omega)]
  have hc := h.trans (.store len _ _ (ch ':'))
  rw [Key.text, encodeKey, htake]
  simpa using hc

mutual

/-- Every name of the tree has the length that is kept beside it. -/
def Node.Measured : Node → Prop
  | .object ⟨_, _, es⟩ => SlotsMeasured es
  | .array ⟨_, _, xs⟩ => ItemsMeasured xs
  | _ => True

def SlotsMeasured : List (Option (Entry Node)) → Prop
  | [] => True
  | none :: es => SlotsMeasured es
  | some ⟨key, val⟩ :: es => key.key.length = key.keylen ∧ val.Measured ∧ SlotsMeasured es

def ItemsMeasured : List Node → Prop
  | [] => True
  | x :: xs => x.Measured ∧ ItemsMeasured xs

end

mutual

/-- The encoder counts the text of a node, and stores it if it fits. -/
theorem encodeNode_adds (len : Nat) : ∀ node : Node, node.Measured →
    Writes.Adds len 0 [] node.text (encodeNode node len)
  | .null, _ => encodeWord_adds _ len
  | .bool false, _ => encodeWord_adds _ len
  | .bool true, _ => encodeWord_adds _ len
  | .number _, _ => encodeWord_adds _ len
  | .string _ s, _ => encodeString_adds s len
  | .object ⟨_, _, es⟩, h => by
    have hb : Writes.Adds len 0 [] [ch '{'] (1, if len ≥ 1 then [(0, ch '{')] else []) :=
      ⟨rfl, fun hl => if_pos hl⟩
    have hs := (hb.trans (encodeSlots_adds len es true 1 _ h)).trans (.store len _ _ (ch '}'))
    rw [Node.text, encodeNode]
    simpa using hs
  | .array ⟨_, _, xs⟩, h => by
    -- an opening bracket on its own never fits, but a closing one follows
    have hs := (encodeItems_adds len xs true 1 (if len > 1 then [(0, ch '[')] else []) h).trans
      (.store len _ _ (ch ']'))
    rw [Node.text, encodeNode]
    refine ⟨?_, ?_⟩
    · rw [hs.1, List.length_cons, Nat.zero_add, Nat.add_comm]
    · intro hl
      rw [List.length_cons, List.length_append, List.length_singleton] at hl
      rw [hs.2 (by rw [List.length_append, List.length_singleton]; omega), if_pos (by omega)]
      rfl

theorem encodeSlots_adds (len : Nat) :
    ∀ (es : List (Option (Entry Node))) (empty : Bool) (r : Nat)
    (w : Writes), SlotsMeasured es →
    Writes.Adds len r w (slotsText empty es) (encodeSlots es empty len r w)
  | [], _, _, _, _ => .nil
  | none :: es, empty, r, w, h => encodeSlots_adds len es empty r w h
  | some ⟨key, val⟩ :: es, empty, r, w, h =>
    ((encodeComma_adds empty len r w).trans) <| (encodeKey_adds key h.1 len _ _).trans <|
      (Writes.Adds.call (encodeNode_adds _ val h.2.1)).trans
        (encodeSlots_adds len es false _ _ h.2.2)

theorem encodeItems_adds (len : Nat) : ∀ (xs : List Node) (empty : Bool) (r : Nat) (w : Writes),
    ItemsMeasured xs → Writes.Adds len r w (itemsText empty xs) (encodeItems xs empty len r w)
  | [], _, _, _, _ => .nil
  | x :: xs, empty, r, w, h =>
    (encodeComma_adds empty len r w).trans <|
      (Writes.Adds.call (encodeNode_adds _ x h.1)).trans (encodeItems_adds len xs false _ _ h.2)

end

theorem cell_append (w : Writes) (n i : Nat) (c : UInt8) :
    Writes.cell (w ++ [(n, c)]) i = if n = i then c else w.cell i := by
  rw [Writes.cell, List.foldl_append]
  rfl

theorem bytes_append (w : Writes) (n : Nat) (c : UInt8) :
    Writes.bytes (w ++ [(n, c)]) n = w.bytes n := by
  apply List.map_congr_left
  intro i hi
  rw [cell_append, if_neg (Nat.ne_of_gt (List.mem_range.1 hi))]

theorem dotjsonEncode_text (h : node.Measured) (hlen : node.text.length < len) :
    (dotjsonEncode node true len).1 = node.text.length ∧
      (dotjsonEncode node true len).2.bytes node.text.length = node.text ∧
      (dotjsonEncode node true len).2.cell node.text.length = 0 := by
  obtain ⟨hn, hw⟩ := encodeNode_adds (len - 1) node h
  rw [Nat.zero_add] at hn hw
  have hx : encodeNode node (len - 1) = (node.text.length, place 0 node.text) :=
    Prod.ext hn (hw (by omega))
  rw [dotjsonEncode, if_pos ⟨rfl, by omega⟩, hx]
  refine ⟨rfl, ?_⟩
  dsimp only
  split
  · rw [bytes_append, bytes_place, cell_append, if_pos rfl]
    exact ⟨rfl, rfl⟩
  · next hz =>
    have hnil : node.text = [] := by
      by_contra hne
      exact hz ⟨fun h => hne (List.length_eq_zero_iff.1 h), rfl, hlen⟩
    rw [hnil]
    exact ⟨rfl, rfl⟩

end Misc.Dotjson
