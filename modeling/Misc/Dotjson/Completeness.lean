import Misc.Dotjson.Lexemes

namespace Misc.Dotjson
set_option autoImplicit true

/-! What the grammar derives, the decoder reads, and it builds the node of the parse tree. -/

def TokenStart (c : UInt8) : Prop := isSpace c = false ∧ c ≠ 0

theorem Space.ignore (hu : Space u) (hc : TokenStart c) (p : Ptr) :
    ignoreSpace (u ++ c :: p) = c :: p :=
  (hu.skip _).trans (ignoreSpace_cons hc.1 p)

/-- The bytes that follow a value in an object or an array. -/
def Closing (c : UInt8) : Prop := c = ch ',' ∨ c = ch '}' ∨ c = ch ']'

theorem NumberEnd.of_byte (hc : isDigit c = false ∧ c ≠ ch '.' ∧ c ≠ ch 'E' ∧ c ≠ ch 'e')
    (q : Ptr) : NumberEnd (c :: q) := hc

theorem NumberEnd.of_isSpace (hc : isSpace c = true) (q : Ptr) : NumberEnd (c :: q) := by
  have hall : c = ch ' ' ∨ c = ch '\t' ∨ c = ch '\n' ∨ c = ch '\r' := by
    simpa [isSpace, or_assoc] using hc
  rcases hall with rfl | rfl | rfl | rfl <;> exact .of_byte (by decide) q

theorem Closing.numberEnd (h : Closing c) (hv : Space v) (q : Ptr) :
    NumberEnd (v ++ c :: q) := by
  cases v with
  | nil =>
    rcases h with rfl | rfl | rfl <;> exact .of_byte (by decide) q
  | cons d v => exact .of_isSpace (hv d List.mem_cons_self) _

mutual

theorem IsValue.head : IsValue b t → ∃ c r, b = c :: r ∧ TokenStart c ∧ c ≠ ch ']'
  | .null => ⟨_, _, rfl, ⟨by decide, by decide⟩, by decide⟩
  | .false => ⟨_, _, rfl, ⟨by decide, by decide⟩, by decide⟩
  | .true => ⟨_, _, rfl, ⟨by decide, by decide⟩, by decide⟩
  | .number h => by
    obtain ⟨c, r, rfl, hc⟩ := h.head
    have hs := isSpace_of_number hc
    refine ⟨c, r, rfl, ⟨hs.1, hs.2.2.2.2⟩, ?_⟩
    rintro rfl
    exact absurd hc (by decide)
  | .string h => by
    obtain ⟨r, rfl⟩ := h.ne_nil
    exact ⟨_, _, rfl, ⟨by decide, by decide⟩, by decide⟩
  | .object h => h.head
  | .array h => h.head

theorem IsObject.head : IsObject b ms → ∃ c r, b = c :: r ∧ TokenStart c ∧ c ≠ ch ']'
  | .empty _ => ⟨_, _, rfl, ⟨by decide, by decide⟩, by decide⟩
  | .members _ => ⟨_, _, rfl, ⟨by decide, by decide⟩, by decide⟩

theorem IsArray.head : IsArray b ts → ∃ c r, b = c :: r ∧ TokenStart c ∧ c ≠ ch ']'
  | .empty _ => ⟨_, _, rfl, ⟨by decide, by decide⟩, by decide⟩
  | .elements _ => ⟨_, _, rfl, ⟨by decide, by decide⟩, by decide⟩

end

/-- `decode_node` reads the value `b`, whatever follows it. -/
def Reads (b : List UInt8) (t : Json) : Prop :=
  ∀ k q, 3 * b.length ≤ k → NumberEnd q →
    decodeNode ignoreSpace k (b ++ q) = (b.length, some t.build)

theorem decodeNode_token (hc : TokenStart c) : decodeNode ignoreSpace (k + 1) (c :: p) =
    if c = ch '{' then decodeObject ignoreSpace k (c :: p)
    else if c = ch '[' then decodeArray ignoreSpace k (c :: p)
    else if c = ch '"' then decodeString ignoreSpace (c :: p)
    else if isDigit c || isSign c then decodeNumber ignoreSpace (c :: p)
    else decodeWord (c :: p) := by
  simp only [decodeNode, ignoreSpace_cons hc.1, byteAt_zero, Nat.sub_self, Nat.zero_add]

/-! ## Arrays -/

theorem arrayLoop_start (k : Nat) (p : Ptr) :
    arrayLoop ignoreSpace (k + 1) .start a (ch '[' :: p) =
      arrayLoop ignoreSpace k .value a p := by
  rw [arrayLoop, if_neg (by rw [byteAt_zero]; decide), ignoreSpace_cons (by decide)]
  · simp
  · intro h
    cases h

theorem arrayLoop_empty (hu : Space u) :
    arrayLoop ignoreSpace (k + 2) .value none (u ++ ch ']' :: q) = some (q, arrayGrow none) := by
  rw [arrayLoop, if_neg (hu.byte_ne (by decide) q), hu.ignore ⟨by decide, by decide⟩]
  · simp [arrayLoop]
  · intro h
    cases h

theorem arrayLoop_value (hu : Space u) (hc : TokenStart c) (hne : c ≠ ch ']')
    (hr : decodeNode ignoreSpace k (c :: p) = (n + 1, some x)) :
    arrayLoop ignoreSpace (k + 1) .value a (u ++ c :: p) =
      arrayLoop ignoreSpace k (.next x) a ((c :: p).drop (n + 1)) := by
  rw [arrayLoop, if_neg (hu.byte_ne hc.2 p), hu.ignore hc]
  · simp only [hr]
    rw [if_neg (show byteAt (c :: p) 0 ≠ ch ']' from hne)]
  · intro h
    cases h

theorem arrayLoop_comma (hv : Space v) :
    arrayLoop ignoreSpace (k + 1) (.next x) a (v ++ ch ',' :: q) =
    arrayLoop ignoreSpace k .value (some (arrayAdd a x)) q := by
  rw [arrayLoop, if_neg (hv.byte_ne (by decide) q), hv.ignore ⟨by decide, by decide⟩]
  · simp
  · intro h
    cases h

theorem arrayLoop_close (hv : Space v) :
    arrayLoop ignoreSpace (k + 2) (.next x) a (v ++ ch ']' :: q) = some (q, arrayAdd a x) := by
  rw [arrayLoop, if_neg (hv.byte_ne (by decide) q), hv.ignore ⟨by decide, by decide⟩]
  · simp [arrayLoop]
  · intro h
    cases h

theorem arrayLoop_element (hu : Space u) (hx : IsValue x t) (hr : Reads x t) (hv : Space v)
    (hk : 3 * x.length ≤ k) (hc : Closing c) (q : Ptr) :
    arrayLoop ignoreSpace (k + 1) .value a (u ++ (x ++ v) ++ c :: q) =
      arrayLoop ignoreSpace k (.next t.build) a (v ++ c :: q) := by
  obtain ⟨d, r, rfl, hd, hne⟩ := hx.head
  have hdec := hr k (v ++ c :: q) hk (hc.numberEnd hv q)
  rw [List.append_assoc, List.append_assoc]
  rw [List.cons_append] at hdec ⊢
  rw [arrayLoop_value hu hd hne hdec]
  simp

/-! ## Objects -/

theorem objectLoop_start (hu : Space u) :
    objectLoop ignoreSpace (k + 1) .start o (u ++ ch '{' :: p) =
      objectLoop ignoreSpace k .key o p := by
  rw [objectLoop, if_neg (hu.byte_ne (by decide) p), hu.ignore ⟨by decide, by decide⟩]
  · simp
  · intro h
    cases h

theorem objectLoop_empty (hu : Space u) :
    objectLoop ignoreSpace (k + 2) .key none (u ++ ch '}' :: q) = some (q, objectGrow none) := by
  rw [objectLoop, if_neg (hu.byte_ne (by decide) q), hu.ignore ⟨by decide, by decide⟩]
  · simp [objectLoop]
  · intro h
    cases h

theorem objectLoop_key (hu : Space u) (hs : IsString b s) :
    objectLoop ignoreSpace (k + 1) .key o (u ++ (b ++ p)) =
      objectLoop ignoreSpace k (.colon (.of s)) o p := by
  obtain ⟨r, rfl⟩ := hs.ne_nil
  rw [List.cons_append, objectLoop, if_neg (hu.byte_ne (by decide) _),
    hu.ignore ⟨by decide, by decide⟩]
  · simp only [byteAt_zero, if_true]
    rw [← List.cons_append, decodeKey_string hs]
  · intro h
    cases h

theorem objectLoop_colon (hv : Space v) :
    objectLoop ignoreSpace (k + 1) (.colon e) o (v ++ ch ':' :: p) =
    objectLoop ignoreSpace k (.value e) o p := by
  rw [objectLoop, if_neg (hv.byte_ne (by decide) p), hv.ignore ⟨by decide, by decide⟩]
  · simp
  · intro h
    cases h

theorem objectLoop_value (hu : Space u) (hc : TokenStart c)
    (hr : decodeNode ignoreSpace k (c :: p) = (n + 1, some x)) :
    objectLoop ignoreSpace (k + 1) (.value e) o (u ++ c :: p) =
      objectLoop ignoreSpace k (.next { e with val := x }) o ((c :: p).drop (n + 1)) := by
  rw [objectLoop, if_neg (hu.byte_ne hc.2 p), hu.ignore hc]
  · simp only [hr]
  · intro h
    cases h

theorem objectLoop_comma (hv : Space v) :
    objectLoop ignoreSpace (k + 1) (.next e) o (v ++ ch ',' :: q) =
    objectLoop ignoreSpace k .key (some (objectAdd o e)) q := by
  rw [objectLoop, if_neg (hv.byte_ne (by decide) q), hv.ignore ⟨by decide, by decide⟩]
  · simp
  · intro h
    cases h

theorem objectLoop_close (hv : Space v) :
    objectLoop ignoreSpace (k + 2) (.next e) o (v ++ ch '}' :: q) =
    some (q, objectAdd o e) := by
  rw [objectLoop, if_neg (hv.byte_ne (by decide) q), hv.ignore ⟨by decide, by decide⟩]
  · simp [objectLoop]
  · intro h
    cases h

theorem objectLoop_member (hu : Space u) (hs : IsString b s) (hw : Space w) (hy : Space y)
    (hx : IsValue x t) (hr : Reads x t) (hv : Space v) (hk : 3 * x.length ≤ k) (hc : Closing c)
    (q : Ptr) :
    objectLoop ignoreSpace (k + 3) .key o
      (u ++ (b ++ (w ++ ch ':' :: (y ++ (x ++ v)))) ++ c :: q) =
      objectLoop ignoreSpace k (.next ⟨.of s, t.build⟩) o (v ++ c :: q) := by
  obtain ⟨d, r, rfl, hd, _⟩ := hx.head
  have hdec := hr k (v ++ c :: q) hk (hc.numberEnd hv q)
  simp only [List.append_assoc, List.cons_append] at hdec ⊢
  rw [objectLoop_key hu hs, objectLoop_colon hw, objectLoop_value hy hd hdec]
  simp

/-! ## All values -/

/-- The element `b` of an array is a value that `decode_node` reads, with space around it. -/
def ReadsElement (b : List UInt8) (t : Json) : Prop :=
  ∃ u x v, Space u ∧ IsValue x t ∧ Reads x t ∧ Space v ∧ b = u ++ (x ++ v)

def ReadsMember (b : List UInt8) (m : List UInt8 × Json) : Prop :=
  ∃ u k w x, Space u ∧ IsString k m.1 ∧ Space w ∧ ReadsElement x m.2 ∧
    b = u ++ (k ++ (w ++ ch ':' :: x))

def ReadsElements (b : List UInt8) (ts : List Json) : Prop := ∀ k a q, 3 * (b.length + 1) ≤ k →
  arrayLoop ignoreSpace k .value a (b ++ ch ']' :: q) = (buildElements a ts).map fun a => (q, a)

def ReadsMembers (b : List UInt8) (ms : List (List UInt8 × Json)) : Prop :=
  ∀ k o q, 3 * (b.length + 1) ≤ k →
    objectLoop ignoreSpace k .key o (b ++ ch '}' :: q) = (buildMembers o ms).map fun o => (q, o)

theorem IsValue.length_pos (h : IsValue b t) : 0 < b.length := by
  obtain ⟨c, r, rfl, _⟩ := h.head
  exact Nat.succ_pos _

theorem ReadsElement.last (h : ReadsElement b t) : ReadsElements b [t] := by
  obtain ⟨u, x, v, hu, hx, hr, hv, rfl⟩ := h
  intro k a q hk
  have hpos := hx.length_pos
  simp only [List.length_append] at hk
  obtain ⟨k, rfl⟩ := Nat.exists_eq_add_of_le' (show 3 ≤ k by omega)
  rw [arrayLoop_element hu hx hr hv (by omega) (.inr (.inr rfl)), arrayLoop_close hv]
  rfl

theorem ReadsElement.cons (h : ReadsElement b t) (hs : ReadsElements b' ts) :
    ReadsElements (b ++ ch ',' :: b') (t :: ts) := by
  obtain ⟨u, x, v, hu, hx, hr, hv, rfl⟩ := h
  intro k a q hk
  simp only [List.length_append, List.length_cons] at hk
  obtain ⟨k, rfl⟩ := Nat.exists_eq_add_of_le' (show 2 ≤ k by omega)
  rw [List.append_assoc, List.cons_append,
    arrayLoop_element hu hx hr hv (by omega) (.inl rfl), arrayLoop_comma hv, hs _ _ _ (by omega)]
  rfl

theorem ReadsMember.last (h : ReadsMember b m) : ReadsMembers b [m] := by
  obtain ⟨u, n, w, _, hu, hn, hw, ⟨y, x, v, hy, hx, hr, hv, rfl⟩, rfl⟩ := h
  intro k o q hk
  have hpos := hx.length_pos
  simp only [List.length_append, List.length_cons] at hk
  obtain ⟨k, rfl⟩ := Nat.exists_eq_add_of_le' (show 5 ≤ k by omega)
  rw [objectLoop_member hu hn hw hy hx hr hv (by omega) (.inr (.inl rfl)), objectLoop_close hv]
  rfl

theorem ReadsMember.cons (h : ReadsMember b m) (hs : ReadsMembers b' ms) :
    ReadsMembers (b ++ ch ',' :: b') (m :: ms) := by
  obtain ⟨u, n, w, _, hu, hn, hw, ⟨y, x, v, hy, hx, hr, hv, rfl⟩, rfl⟩ := h
  intro k o q hk
  have hpos := hx.length_pos
  simp only [List.length_append, List.length_cons] at hk
  obtain ⟨k, rfl⟩ := Nat.exists_eq_add_of_le' (show 4 ≤ k by omega)
  rw [List.append_assoc, List.cons_append,
    objectLoop_member hu hn hw hy hx hr hv (by omega) (.inl rfl), objectLoop_comma hv,
    hs _ _ _ (by omega)]
  rfl

/-- `decode_object` reads the object `b`, also with space before it. -/
def ReadsObject (b : List UInt8) (ms : List (List UInt8 × Json)) : Prop :=
  ∀ k u q, Space u → 3 * b.length ≤ k + 1 →
    decodeObject ignoreSpace k (u ++ (b ++ q)) =
      (u.length + b.length, some (Json.object ms).build)

def ReadsArray (b : List UInt8) (ts : List Json) : Prop :=
  ∀ k q, 3 * b.length ≤ k + 1 →
    decodeArray ignoreSpace k (b ++ q) = (b.length, some (Json.array ts).build)

theorem buildMembers_isSome : (buildMembers o ms).isSome = (o.isSome || !ms.isEmpty) := by
  induction ms generalizing o with
  | nil => simp [buildMembers]
  | cons m ms ih => simp [buildMembers, ih]

theorem buildElements_isSome : (buildElements a ts).isSome = (a.isSome || !ts.isEmpty) := by
  induction ts generalizing a with
  | nil => simp [buildElements]
  | cons t ts ih => simp [buildElements, ih]

theorem ReadsMembers.object (h : ReadsMembers b ms) (hne : ms ≠ []) :
    ReadsObject (ch '{' :: (b ++ [ch '}'])) ms := by
  intro k u q hu hk
  simp only [List.length_cons, List.length_append, List.length_nil] at hk
  obtain ⟨k, rfl⟩ := Nat.exists_eq_add_of_le' (show 2 ≤ k by omega)
  obtain ⟨o, ho⟩ : ∃ o, buildMembers none ms = some o := by
    rw [← Option.isSome_iff_exists, buildMembers_isSome]
    cases ms with
    | nil => exact absurd rfl hne
    | cons => rfl
  rw [decodeObject, List.cons_append, objectLoop_start hu, List.append_assoc,
    List.singleton_append, h _ _ _ (by omega), ho]
  simp [objectResult, Json.build, ho]
  omega

theorem ReadsElements.array (h : ReadsElements b ts) (hne : ts ≠ []) :
    ReadsArray (ch '[' :: (b ++ [ch ']'])) ts := by
  intro k q hk
  simp only [List.length_cons, List.length_append, List.length_nil] at hk
  obtain ⟨k, rfl⟩ := Nat.exists_eq_add_of_le' (show 2 ≤ k by omega)
  obtain ⟨a, ha⟩ : ∃ a, buildElements none ts = some a := by
    rw [← Option.isSome_iff_exists, buildElements_isSome]
    cases ts with
    | nil => exact absurd rfl hne
    | cons => rfl
  rw [decodeArray, List.cons_append, arrayLoop_start, List.append_assoc, List.singleton_append,
    h _ _ _ (by omega), ha]
  simp [arrayResult, Json.build, ha]
  omega

theorem readsObject_empty (hv : Space v) : ReadsObject (ch '{' :: (v ++ [ch '}'])) [] := by
  intro k u q hu hk
  simp only [List.length_cons, List.length_append, List.length_nil] at hk
  obtain ⟨k, rfl⟩ := Nat.exists_eq_add_of_le' (show 4 ≤ k by omega)
  rw [decodeObject, List.cons_append, objectLoop_start hu, List.append_assoc,
    List.singleton_append, objectLoop_empty hv]
  simp [objectResult, Json.build, buildMembers]
  omega

theorem readsArray_empty (hu : Space u) : ReadsArray (ch '[' :: (u ++ [ch ']'])) [] := by
  intro k q hk
  simp only [List.length_cons, List.length_append, List.length_nil] at hk
  obtain ⟨k, rfl⟩ := Nat.exists_eq_add_of_le' (show 4 ≤ k by omega)
  rw [decodeArray, List.cons_append, arrayLoop_start, List.append_assoc, List.singleton_append,
    arrayLoop_empty hu]
  simp [arrayResult, Json.build, buildElements]
  omega

theorem ReadsObject.value (h : ReadsObject b ms) (hb : b = ch '{' :: r) :
    Reads b (.object ms) := by
  subst hb
  intro k q hk _
  obtain ⟨k, rfl⟩ := Nat.exists_eq_add_of_lt
    (show 0 < k by rw [List.length_cons] at hk; omega)
  rw [List.cons_append, Nat.zero_add, decodeNode_token ⟨by decide, by decide⟩, if_pos rfl]
  have hd := h k [] q (by simp [Space]) (by omega)
  rwa [List.nil_append, List.length_nil, Nat.zero_add] at hd

theorem ReadsArray.value (h : ReadsArray b ts) (hb : b = ch '[' :: r) : Reads b (.array ts) := by
  subst hb
  intro k q hk _
  obtain ⟨k, rfl⟩ := Nat.exists_eq_add_of_lt
    (show 0 < k by rw [List.length_cons] at hk; omega)
  rw [List.cons_append, Nat.zero_add, decodeNode_token ⟨by decide, by decide⟩,
    if_neg (by decide), if_pos rfl]
  exact h k q (by omega)

theorem reads_word (hw : ∀ q, decodeWord (c :: r ++ q) = ((c :: r).length, some t.build))
    (hc : c = ch 'n' ∨ c = ch 'f' ∨ c = ch 't') : Reads (c :: r) t := by
  intro k q hk _
  obtain ⟨k, rfl⟩ := Nat.exists_eq_add_of_lt
    (show 0 < k by rw [List.length_cons] at hk; omega)
  have hd : TokenStart c ∧ c ≠ ch '{' ∧ c ≠ ch '[' ∧ c ≠ ch '"' ∧
      (isDigit c || isSign c) = false := by
    rcases hc with rfl | rfl | rfl <;>
      exact ⟨⟨by decide, by decide⟩, by decide, by decide, by decide, by decide⟩
  obtain ⟨ht, h₁, h₂, h₃, h₄⟩ := hd
  rw [List.cons_append, Nat.zero_add, decodeNode_token ht, if_neg h₁, if_neg h₂, if_neg h₃, h₄]
  exact hw q

theorem IsNumber.reads (h : IsNumber b) : Reads b (.number b) := by
  intro k q hk hq
  obtain ⟨c, r, hb, hc⟩ := h.head
  have hs := isSpace_of_number hc
  obtain ⟨k, rfl⟩ := Nat.exists_eq_add_of_lt
    (show 0 < k by rw [hb, List.length_cons] at hk; omega)
  have hd := decodeNumber_number h hq
  rw [hb, List.cons_append] at hd ⊢
  rw [Nat.zero_add, decodeNode_token ⟨hs.1, hs.2.2.2.2⟩, if_neg hs.2.1, if_neg hs.2.2.1,
    if_neg hs.2.2.2.1, if_pos (by rcases hc with hc | hc <;> simp [hc]), hd]
  rfl

theorem IsString.reads (h : IsString b s) : Reads b (.string s) := by
  intro k q hk _
  obtain ⟨r, hb⟩ := h.ne_nil
  obtain ⟨k, rfl⟩ := Nat.exists_eq_add_of_lt
    (show 0 < k by rw [hb, List.length_cons] at hk; omega)
  have hd := decodeString_string h q
  rw [hb, List.cons_append] at hd ⊢
  rw [Nat.zero_add, decodeNode_token ⟨by decide, by decide⟩, if_neg (by decide),
    if_neg (by decide), if_pos rfl, hd]
  rfl

mutual

theorem IsValue.reads : IsValue b t → Reads b t
  | .null => reads_word (fun q => by simp [decodeWord, byteAt, Json.build]) (.inl rfl)
  | .false => reads_word (fun q => by simp [decodeWord, byteAt, Json.build]) (.inr (.inl rfl))
  | .true => reads_word (fun q => by simp [decodeWord, byteAt, Json.build]) (.inr (.inr rfl))
  | .number h => h.reads
  | .string h => h.reads
  | .object h => by
    obtain ⟨r, hb⟩ := h.brace
    exact h.reads.value hb
  | .array h => by
    obtain ⟨r, hb⟩ := h.bracket
    exact h.reads.value hb

theorem IsObject.brace : IsObject b ms → ∃ r, b = ch '{' :: r
  | .empty _ => ⟨_, rfl⟩
  | .members _ => ⟨_, rfl⟩

theorem IsArray.bracket : IsArray b ts → ∃ r, b = ch '[' :: r
  | .empty _ => ⟨_, rfl⟩
  | .elements _ => ⟨_, rfl⟩

theorem IsObject.reads : IsObject b ms → ReadsObject b ms
  | .empty hu => readsObject_empty hu
  | .members h => h.reads.object (by cases h <;> exact List.cons_ne_nil _ _)

theorem IsMembers.reads : IsMembers b ms → ReadsMembers b ms
  | .one h => h.reads.last
  | .cons h hs => h.reads.cons hs.reads

theorem IsMember.reads : IsMember b m → ReadsMember b m
  | .mk hu hs hv he => ⟨_, _, _, _, hu, hs, hv, he.reads, rfl⟩

theorem IsArray.reads : IsArray b ts → ReadsArray b ts
  | .empty hu => readsArray_empty hu
  | .elements h => h.reads.array (by cases h <;> exact List.cons_ne_nil _ _)

theorem IsElements.reads : IsElements b ts → ReadsElements b ts
  | .one h => h.reads.last
  | .cons h hs => h.reads.cons hs.reads

theorem IsElement.reads : IsElement b t → ReadsElement b t
  | .mk hu hx hv => ⟨_, _, _, hu, hx, hx.reads, hv, rfl⟩

end

end Misc.Dotjson
