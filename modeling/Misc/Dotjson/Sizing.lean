import Misc.Dotjson.Encode

namespace Misc.Dotjson
set_option autoImplicit true

/-- A tree whose names all have their lengths beside them. -/
structure Tree where
  root : Node
  measured : root.Measured

/-- What memory holds after the stores. -/
def Writes.onto (w : Writes) (mem : Nat → UInt8) (i : Nat) : UInt8 :=
  w.foldl (fun v x => if x.1 = i then x.2 else v) (mem i)

/-- The stores reach only the first `len` cells. -/
def Writes.Below (len : Nat) (w : Writes) : Prop := ∀ x ∈ w, x.1 < len

/-- A buffer of `len` bytes gets the count of the text, and no store outside it. -/
structure Sizes (t : Tree) (buf : Bool) (len : Nat) : Prop where
  count : (dotjsonEncode t.root buf len).1 = t.root.text.length
  below : (dotjsonEncode t.root buf len).2.Below (if buf then len else 0)

/-- A buffer that is longer than the text gets the text with a NUL behind it. -/
structure Encodes (t : Tree) (buf : Bool) (len : Nat) : Prop extends Sizes t buf len where
  text : buf = true → t.root.text.length < len → ∀ mem,
    (List.range t.root.text.length).map ((dotjsonEncode t.root buf len).2.onto mem) =
      t.root.text ∧ (dotjsonEncode t.root buf len).2.onto mem t.root.text.length = 0

namespace Writes.Below

theorem nil (len : Nat) : Below len [] := fun _ h => absurd h List.not_mem_nil

theorem append (h : Below len w) (h' : Below len w') : Below len (w ++ w') :=
  fun x hx => (List.mem_append.1 hx).elim (h x) (h' x)

theorem mono (h : Below len w) (hle : len ≤ len') : Below len' w :=
  fun x hx => Nat.lt_of_lt_of_le (h x hx) hle

theorem store (h : Below len w) (r : Nat) (c : UInt8) : Below len (Dotjson.store len r c w) := by
  rw [Dotjson.store]
  split_ifs with hr
  · apply h.append
    intro x hx
    cases List.mem_singleton.1 hx
    exact hr
  · exact h

theorem place (n : Nat) (b : List UInt8) : Below (n + b.length) (Dotjson.place n b) := by
  induction b generalizing n with
  | nil => exact .nil _
  | cons c b ih =>
    intro x hx
    rw [List.length_cons]
    rcases List.mem_cons.1 hx with rfl | hx
    · dsimp only
      omega
    · have hlt := ih (n + 1) x hx
      omega

theorem shift (h : Below (if len > r then len - r else 0) w) : Below len (w.shift r) := by
  intro x hx
  obtain ⟨y, hy, rfl⟩ := List.mem_map.1 hx
  have hlt := h y hy
  dsimp only
  split_ifs at hlt <;> omega

end Writes.Below

theorem encodeStringLoop_below (h : Writes.Below len w) (s : List UInt8) (r : Nat) :
    (encodeStringLoop len s r w).2.Below len := by
  induction s generalizing r w with
  | nil => exact h
  | cons c s ih =>
    rw [encodeStringLoop]
    split
    · exact h
    · cases escapeChar c with
      | some e => exact ih ((h.store _ _).store _ _) _
      | none => exact ih (h.store _ _) _

theorem encodeString_below (s : List UInt8) (len : Nat) : (encodeString s len).2.Below len :=
  (encodeStringLoop_below ((Writes.Below.nil len).store 0 _) s 1).store _ _

theorem encodeWord_below (b : List UInt8) (len : Nat) : (encodeWord b len).2.Below len := by
  rw [encodeWord]
  dsimp only
  split_ifs with hle
  · exact (Writes.Below.place 0 b).mono (by omega)
  · exact .nil len

theorem encodeComma_below (h : Writes.Below len w) (empty : Bool) (r : Nat) :
    (encodeComma empty len r w).2.Below len := by
  cases empty
  · exact h.store _ _
  · exact h

theorem encodeKey_below (h : Writes.Below len w) (key : Key) (r : Nat) :
    (encodeKey key len r w).2.Below len := by
  rw [encodeKey]
  refine Writes.Below.store ?_ _ _
  split_ifs with hle
  · refine h.append ((Writes.Below.place r _).mono ?_)
    rw [List.length_cons, List.length_append, List.length_singleton, List.length_take]
    omega
  · exact h

mutual

/-- No construct stores behind the length that it is given. -/
theorem encodeNode_below (len : Nat) : ∀ node : Node, (encodeNode node len).2.Below len
  | .null => encodeWord_below _ len
  | .bool false => encodeWord_below _ len
  | .bool true => encodeWord_below _ len
  | .number _ => encodeWord_below _ len
  | .string _ s => encodeString_below s len
  | .object ⟨_, _, es⟩ => by
    rw [encodeNode]
    refine (encodeSlots_below ?_ es true 1).store _ _
    exact (Writes.Below.nil len).store 0 _
  | .array ⟨_, _, xs⟩ => by
    rw [encodeNode]
    refine (encodeItems_below ?_ xs true 1).store _ _
    split_ifs with hlen
    · intro x hx
      cases List.mem_singleton.1 hx
      exact Nat.lt_of_succ_lt hlen
    · exact .nil len

theorem encodeSlots_below {len : Nat} {w : Writes} (h : w.Below len) :
    ∀ (es : List (Option (Entry Node))) (empty : Bool) (r : Nat),
      (encodeSlots es empty len r w).2.Below len
  | [], _, _ => h
  | none :: es, empty, r => encodeSlots_below h es empty r
  | some ⟨key, val⟩ :: es, empty, r => by
    rw [encodeSlots]
    have hkey := encodeKey_below (encodeComma_below h empty r) key (encodeComma empty len r w).1
    exact encodeSlots_below (hkey.append (encodeNode_below _ val).shift) es false _

theorem encodeItems_below {len : Nat} {w : Writes} (h : w.Below len) :
    ∀ (xs : List Node) (empty : Bool) (r : Nat), (encodeItems xs empty len r w).2.Below len
  | [], _, _ => h
  | x :: xs, empty, r => by
    rw [encodeItems]
    have hcomma := encodeComma_below h empty r
    exact encodeItems_below (hcomma.append (encodeNode_below _ x).shift) xs false _

end

theorem sizes (t : Tree) (buf : Bool) (len : Nat) : Sizes t buf len := by
  constructor
  · exact (encodeNode_adds _ t.root t.measured).1.trans (Nat.zero_add _)
  · have hbelow := encodeNode_below (if buf = true ∧ len > 0 then len - 1 else 0) t.root
    have hlimit : (if buf = true ∧ len > 0 then len - 1 else 0) ≤ if buf = true then len
        else 0 := by
      cases buf with
      | false => exact Nat.le_refl 0
      | true =>
        rw [if_pos rfl]
        split_ifs <;> omega
    have hnode := hbelow.mono hlimit
    rw [dotjsonEncode]
    generalize encodeNode t.root _ = x at hnode
    dsimp only
    by_cases hnul : x.1 ≠ 0 ∧ buf = true ∧ len > x.1
    · rw [if_pos hnul]
      apply hnode.append
      intro y hy
      cases List.mem_singleton.1 hy
      rw [if_pos hnul.2.1]
      exact hnul.2.2
    · rw [if_neg hnul]
      exact hnode

theorem onto_text (b : List UInt8) (mem : Nat → UInt8) :
    (List.range b.length).map ((place 0 b ++ [(b.length, 0)]).onto mem) = b ∧
      (place 0 b ++ [(b.length, 0)]).onto mem b.length = 0 := by
  have honto (i : Nat) : (place 0 b ++ [(b.length, 0)]).onto mem i =
      if b.length = i then 0 else b.getD i (mem i) := by
    rw [Writes.onto, List.foldl_append, cell_place, if_pos (Nat.zero_le i)]
    rfl
  constructor
  · apply List.ext_getElem
    · rw [List.length_map, List.length_range]
    · intro i h₁ h₂
      rw [List.getElem_map, List.getElem_range, honto, if_neg (by omega),
        List.getD_eq_getElem?_getD, List.getElem?_eq_getElem h₂, Option.getD_some]
  · rw [honto, if_pos rfl]

/-- For every tree and every buffer the encoder returns the length of one text and keeps to the
buffer, and it leaves the whole text with its NUL where there is room, unless the text is
empty. -/
theorem encodes (t : Tree) (buf : Bool) (len : Nat) :
    Sizes t buf len ∧ (t.root.text ≠ [] → Encodes t buf len) := by
  refine ⟨sizes t buf len, ?_⟩
  intro hne
  refine ⟨sizes t buf len, ?_⟩
  intro hbuf hlen mem
  obtain ⟨hn, hw⟩ := encodeNode_adds (len - 1) t.root t.measured
  rw [Nat.zero_add] at hn hw
  have hpos : t.root.text.length ≠ 0 := fun h => hne (List.length_eq_zero_iff.1 h)
  have hlimit : (if buf = true ∧ len > 0 then len - 1 else 0) = len - 1 :=
    if_pos ⟨hbuf, by omega⟩
  rw [dotjsonEncode, hlimit, hn, hw (by omega), if_pos ⟨hpos, hbuf, hlen⟩, List.nil_append]
  exact onto_text t.root.text mem

/-- A number without a lexeme, of which the count is the one for a failure. -/
theorem not_encodes_empty : ¬ Encodes ⟨.number [], trivial⟩ true 1 := by
  intro h
  have hnul := (h.text rfl (by decide) fun _ => 1).2
  revert hnul
  decide

end Misc.Dotjson
