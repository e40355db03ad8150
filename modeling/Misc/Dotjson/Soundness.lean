import Misc.Dotjson.Completeness

namespace Misc.Dotjson
set_option autoImplicit true

/-! What the decoder reads, the grammar derives. -/

theorem decodeWord_sound (h : (decodeWord p).1 ≠ 0) : ∃ b t q, IsValue b t ∧ p = b ++ q ∧
    decodeWord p = (b.length, some t.build) := by
  have hread (b : List UInt8) (t : Json) (q : Ptr) (hb : IsValue b t) (hp : p = b ++ q)
      (hd : decodeWord (b ++ q) = (b.length, some t.build)) :
      ∃ b t q, IsValue b t ∧ p = b ++ q ∧ decodeWord p = (b.length, some t.build) :=
    ⟨b, t, q, hb, hp, hp ▸ hd⟩
  rw [decodeWord] at h
  split at h
  · next h₀ =>
    split at h
    · next hr =>
      obtain ⟨p, rfl⟩ := byteAt_eq h₀ (by decide)
      rw [byteAt_one] at hr
      obtain ⟨p, rfl⟩ := byteAt_eq hr.1 (by decide)
      obtain ⟨p, rfl⟩ := byteAt_eq (p := p) hr.2.1 (by decide)
      obtain ⟨p, rfl⟩ := byteAt_eq (p := p) hr.2.2 (by decide)
      exact hread _ _ p .null rfl (by simp [decodeWord, byteAt, Json.build])
    · exact absurd rfl h
  · split at h
    · next h₀ =>
      split at h
      · next hr =>
        obtain ⟨p, rfl⟩ := byteAt_eq h₀ (by decide)
        obtain ⟨p, rfl⟩ := byteAt_eq (p := p) hr.1 (by decide)
        obtain ⟨p, rfl⟩ := byteAt_eq (p := p) hr.2.1 (by decide)
        obtain ⟨p, rfl⟩ := byteAt_eq (p := p) hr.2.2.1 (by decide)
        obtain ⟨p, rfl⟩ := byteAt_eq (p := p) hr.2.2.2 (by decide)
        exact hread _ _ p .false rfl (by simp [decodeWord, byteAt, Json.build])
      · exact absurd rfl h
    · split at h
      · next h₀ =>
        split at h
        · next hr =>
          obtain ⟨p, rfl⟩ := byteAt_eq h₀ (by decide)
          obtain ⟨p, rfl⟩ := byteAt_eq (p := p) hr.1 (by decide)
          obtain ⟨p, rfl⟩ := byteAt_eq (p := p) hr.2.1 (by decide)
          obtain ⟨p, rfl⟩ := byteAt_eq (p := p) hr.2.2 (by decide)
          exact hread _ _ p .true rfl (by simp [decodeWord, byteAt, Json.build])
        · exact absurd rfl h
      · exact absurd rfl h

/-- What is left to read of an array in front of a value. -/
def ValueLeft (a : Option (Items Node)) (p q : Ptr) (x : Items Node) : Prop :=
  (∃ b ts, IsElements b ts ∧ p = b ++ ch ']' :: q ∧ buildElements a ts = some x) ∨
    a = none ∧ x = arrayGrow none ∧ ∃ u, Space u ∧ p = u ++ ch ']' :: q

def NextLeft (a : Option (Items Node)) (node : Node) (p q : Ptr) (x : Items Node) : Prop :=
  ∃ v, Space v ∧ (p = v ++ ch ']' :: q ∧ x = arrayAdd a node ∨
    ∃ b ts, IsElements b ts ∧ p = v ++ ch ',' :: (b ++ ch ']' :: q) ∧
      buildElements (some (arrayAdd a node)) ts = some x)

def KeyLeft (o : Option (Table Node)) (p q : Ptr) (x : Table Node) : Prop :=
  (∃ b ms, IsMembers b ms ∧ p = b ++ ch '}' :: q ∧ buildMembers o ms = some x) ∨
    o = none ∧ x = objectGrow none ∧ ∃ u, Space u ∧ p = u ++ ch '}' :: q

def EntryLeft (o : Option (Table Node)) (e : Entry Node) (p q : Ptr) (x : Table Node) : Prop :=
  ∃ v, Space v ∧ (p = v ++ ch '}' :: q ∧ x = objectAdd o e ∨
    ∃ b ms, IsMembers b ms ∧ p = v ++ ch ',' :: (b ++ ch '}' :: q) ∧
      buildMembers (some (objectAdd o e)) ms = some x)

/-- Soundness of the decoders that take part in the recursion, up to a bound on the turns. -/
structure Sound (k : Nat) : Prop where
  node : ignoreSpace p = p → decodeNode ignoreSpace k p = (n + 1, r) →
    ∃ b t q, IsValue b t ∧ p = b ++ q ∧ n + 1 = b.length ∧ r = some t.build
  value : arrayLoop ignoreSpace k .value a p = some (q, x) → ValueLeft a p q x
  next : arrayLoop ignoreSpace k (.next d) a p = some (q, x) → NextLeft a d p q x
  key : objectLoop ignoreSpace k .key o p = some (q, y) → KeyLeft o p q y
  colon : objectLoop ignoreSpace k (.colon e) o p = some (q, y) →
    ∃ u w b t p', Space u ∧ Space w ∧
    IsValue b t ∧ p = u ++ ch ':' :: (w ++ (b ++ p')) ∧
      EntryLeft o { e with val := t.build } p' q y
  val : objectLoop ignoreSpace k (.value e) o p = some (q, y) → ∃ w b t p', Space w ∧
    IsValue b t ∧ p = w ++ (b ++ p') ∧ EntryLeft o { e with val := t.build } p' q y
  entry : objectLoop ignoreSpace k (.next f) o p = some (q, y) → EntryLeft o f p q y
  array : decodeArray ignoreSpace k p = (n + 1, r) → byteAt p 0 = ch '[' →
    ∃ b ts q, IsArray b ts ∧ p = b ++ q ∧ n + 1 = b.length ∧ r = some (Json.array ts).build
  object : decodeObject ignoreSpace k p = (n + 1, r) →
    ∃ u b ms q, Space u ∧ IsObject b ms ∧ p = u ++ (b ++ q) ∧ n + 1 = u.length + b.length ∧
      r = some (Json.object ms).build

section

variable {k : Nat}

theorem byteAt_ignoreSpace (hne : c ≠ 0) (h : byteAt (ignoreSpace s) 0 = c) :
    ∃ u p, Space u ∧ s = u ++ c :: p ∧ ignoreSpace s = c :: p := by
  obtain ⟨u, hu, hs⟩ := ignoreSpace_spec s
  obtain ⟨p, hp⟩ := byteAt_eq h hne
  exact ⟨u, p, hu, hp ▸ hs, hp⟩

theorem arrayNext_sound (ih : Sound k)
    (h : arrayLoop ignoreSpace (k + 1) (.next d) a s = some (q, x)) : NextLeft a d s q x := by
  rw [arrayLoop] at h
  · split at h
    · cases h
    · dsimp only at h
      split at h
      · next hc =>
        obtain ⟨u, p, hu, rfl, hp⟩ := byteAt_ignoreSpace (by decide) hc
        rw [hp, List.drop_succ_cons, List.drop_zero] at h
        rcases ih.value h with ⟨b, ts, hb, rfl, hx⟩ | ⟨ha, _⟩
        · exact ⟨u, hu, .inr ⟨b, ts, hb, rfl, hx⟩⟩
        · cases ha
      · split at h
        · next hc =>
          obtain ⟨u, p, hu, rfl, hp⟩ := byteAt_ignoreSpace (by decide) hc
          rw [hp, List.drop_succ_cons, List.drop_zero] at h
          cases k with
          | zero => cases h
          | succ k =>
            cases h
            exact ⟨u, hu, .inl ⟨rfl, rfl⟩⟩
        · cases h
  · intro h
    cases h

theorem arrayValue_sound (ih : Sound k)
    (h : arrayLoop ignoreSpace (k + 1) .value a s = some (q, x)) : ValueLeft a s q x := by
  rw [arrayLoop] at h
  · split at h
    · cases h
    · dsimp only at h
      split at h
      · next hc =>
        obtain ⟨u, p, hu, rfl, hp⟩ := byteAt_ignoreSpace (by decide) hc
        rw [hp, List.drop_succ_cons, List.drop_zero] at h
        cases a with
        | some _ => cases h
        | none =>
          cases k with
          | zero => cases h
          | succ k =>
            cases h
            exact .inr ⟨rfl, rfl, u, hu, rfl⟩
      · cases hd : decodeNode ignoreSpace k (ignoreSpace s) with
        | mk n r =>
          rw [hd] at h
          match n, r, h with
          | n + 1, some d, h =>
            obtain ⟨b, t, p, hb, hp, hn, hr⟩ := ih.node (ignoreSpace_idem s) hd
            obtain ⟨u, hu, hs⟩ := ignoreSpace_spec s
            cases hr
            dsimp only at h
            rw [hp, hn, List.drop_left] at h
            obtain ⟨v, hv, ⟨rfl, hx⟩ | ⟨b', ts, hts, rfl, hx⟩⟩ := ih.next h
            · refine .inl ⟨u ++ (b ++ v), [t], .one (.mk hu hb hv), ?_, ?_⟩
              · rw [hs, hp]
                simp
              · rw [hx]
                rfl
            · refine .inl ⟨_, _, .cons (.mk hu hb hv) hts, ?_, hx⟩
              rw [hs, hp]
              simp
  · intro h
    cases h

theorem objectEntry_sound (ih : Sound k)
    (h : objectLoop ignoreSpace (k + 1) (.next e) o s = some (q, y)) : EntryLeft o e s q y := by
  rw [objectLoop] at h
  · split at h
    · cases h
    · dsimp only at h
      split at h
      · next hc =>
        obtain ⟨u, p, hu, rfl, hp⟩ := byteAt_ignoreSpace (by decide) hc
        rw [hp, List.drop_succ_cons, List.drop_zero] at h
        rcases ih.key h with ⟨b, ms, hb, rfl, hx⟩ | ⟨ho, _⟩
        · exact ⟨u, hu, .inr ⟨b, ms, hb, rfl, hx⟩⟩
        · cases ho
      · split at h
        · next hc =>
          obtain ⟨u, p, hu, rfl, hp⟩ := byteAt_ignoreSpace (by decide) hc
          rw [hp, List.drop_succ_cons, List.drop_zero] at h
          cases k with
          | zero => cases h
          | succ k =>
            cases h
            exact ⟨u, hu, .inl ⟨rfl, rfl⟩⟩
        · cases h
  · intro h
    cases h

theorem objectVal_sound (ih : Sound k)
    (h : objectLoop ignoreSpace (k + 1) (.value e) o s = some (q, y)) :
    ∃ w b t p', Space w ∧ IsValue b t ∧ s = w ++ (b ++ p') ∧
      EntryLeft o { e with val := t.build } p' q y := by
  rw [objectLoop] at h
  · split at h
    · cases h
    · cases hd : decodeNode ignoreSpace k (ignoreSpace s) with
      | mk n r =>
        dsimp only at h
        rw [hd] at h
        match n, r, h with
        | n + 1, some d, h =>
          obtain ⟨b, t, p, hb, hp, hn, hr⟩ := ih.node (ignoreSpace_idem s) hd
          obtain ⟨u, hu, hs⟩ := ignoreSpace_spec s
          cases hr
          dsimp only at h
          rw [hp, hn, List.drop_left] at h
          exact ⟨u, b, t, p, hu, hb, hp ▸ hs, ih.entry h⟩
  · intro h
    cases h

theorem objectColon_sound (ih : Sound k)
    (h : objectLoop ignoreSpace (k + 1) (.colon e) o s = some (q, y)) :
    ∃ u w b t p', Space u ∧ Space w ∧ IsValue b t ∧ s = u ++ ch ':' :: (w ++ (b ++ p')) ∧
      EntryLeft o { e with val := t.build } p' q y := by
  rw [objectLoop] at h
  · split at h
    · cases h
    · dsimp only at h
      split at h
      · next hc =>
        obtain ⟨u, p, hu, rfl, hp⟩ := byteAt_ignoreSpace (by decide) hc
        rw [hp, List.drop_succ_cons, List.drop_zero] at h
        obtain ⟨w, b, t, p', hw, hb, rfl, he⟩ := ih.val h
        exact ⟨u, w, b, t, p', hu, hw, hb, rfl, he⟩
      · cases h
  · intro h
    cases h

theorem objectKey_sound (ih : Sound k)
    (h : objectLoop ignoreSpace (k + 1) .key o s = some (q, y)) : KeyLeft o s q y := by
  rw [objectLoop] at h
  · split at h
    · cases h
    · dsimp only at h
      split at h
      · cases hk : decodeKey (ignoreSpace s) with
        | none =>
          rw [hk] at h
          cases h
        | some r =>
          obtain ⟨e, p⟩ := r
          obtain ⟨n, name, hn, hp, rfl⟩ := decodeKey_sound hk
          obtain ⟨u, hu, hs⟩ := ignoreSpace_spec s
          rw [hk] at h
          obtain ⟨v, w, b, t, p', hv, hw, hb, rfl, z, hz, ⟨rfl, hx⟩ | ⟨b', ms, hms, rfl, hx⟩⟩ :=
            ih.colon h
          · refine .inl ⟨_, _, .one (.mk hu hn hv (.mk hw hb hz)), ?_, ?_⟩
            · rw [hs, hp]
              simp
            · rw [hx]
              rfl
          · refine .inl ⟨_, _, .cons (.mk hu hn hv (.mk hw hb hz)) hms, ?_, hx⟩
            rw [hs, hp]
            simp
      · split at h
        · next hc =>
          obtain ⟨u, p, hu, rfl, hp⟩ := byteAt_ignoreSpace (by decide) hc
          rw [hp, List.drop_succ_cons, List.drop_zero] at h
          cases o with
          | some _ => cases h
          | none =>
            cases k with
            | zero => cases h
            | succ k =>
              cases h
              exact .inr ⟨rfl, rfl, u, hu, rfl⟩
        · cases h
  · intro h
    cases h

theorem arrayResult_some (h : arrayResult s l = (n + 1, r)) :
    ∃ q x, l = some (q, x) ∧ n + 1 = s.length - q.length ∧ r = some (.array x) := by
  match l, h with
  | some (q, x), h =>
    obtain ⟨hn, hr⟩ := Prod.mk.inj h
    exact ⟨q, x, rfl, hn.symm, hr.symm⟩

theorem objectResult_some (h : objectResult s l = (n + 1, r)) :
    ∃ q y, l = some (q, y) ∧ n + 1 = s.length - q.length ∧ r = some (.object y) := by
  match l, h with
  | some (q, y), h =>
    obtain ⟨hn, hr⟩ := Prod.mk.inj h
    exact ⟨q, y, rfl, hn.symm, hr.symm⟩

theorem array_sound (ih : ∀ j, j < k → Sound j) (h : decodeArray ignoreSpace k s = (n + 1, r))
    (hs : byteAt s 0 = ch '[') :
    ∃ b ts q, IsArray b ts ∧ s = b ++ q ∧ n + 1 = b.length ∧ r = some (Json.array ts).build := by
  match k, h with
  | k + 1, h =>
    obtain ⟨q, x, hl, hn, rfl⟩ := arrayResult_some h
    obtain ⟨p, rfl⟩ := byteAt_eq hs (by decide)
    match k, hl with
    | k + 1, hl =>
      rw [arrayLoop_start] at hl
      rcases (ih k (by omega)).value hl with ⟨b, ts, hb, rfl, hx⟩ | ⟨_, rfl, u, hu, rfl⟩
      · refine ⟨_, ts, q, .elements hb, by simp, ?_, ?_⟩
        · rw [hn]
          simp
          omega
        · simp [Json.build, hx]
      · refine ⟨_, [], q, .empty hu, by simp, ?_, ?_⟩
        · rw [hn]
          simp
          omega
        · simp [Json.build, buildElements]

theorem object_sound (ih : ∀ j, j < k → Sound j)
    (h : decodeObject ignoreSpace k s = (n + 1, r)) :
    ∃ u b ms q, Space u ∧ IsObject b ms ∧ s = u ++ (b ++ q) ∧ n + 1 = u.length + b.length ∧
      r = some (Json.object ms).build := by
  match k, h with
  | k + 1, h =>
    obtain ⟨q, y, hl, hn, rfl⟩ := objectResult_some h
    match k, hl with
    | k + 1, hl =>
      have hstart : ∃ u p, Space u ∧ s = u ++ ch '{' :: p := by
        rw [objectLoop] at hl
        · split at hl
          · cases hl
          · dsimp only at hl
            split at hl
            · next hc =>
              obtain ⟨u, p, hu, hs, _⟩ := byteAt_ignoreSpace (by decide) hc
              exact ⟨u, p, hu, hs⟩
            · cases hl
        · intro h
          cases h
      obtain ⟨u, p, hu, rfl⟩ := hstart
      rw [objectLoop_start hu] at hl
      rcases (ih k (by omega)).key hl with ⟨b, ms, hb, rfl, hy⟩ | ⟨_, rfl, v, hv, rfl⟩
      · refine ⟨u, _, ms, q, hu, .members hb, by simp, ?_, ?_⟩
        · rw [hn]
          simp
          omega
        · simp [Json.build, hy]
      · refine ⟨u, _, [], q, hu, .empty hv, by simp, ?_, ?_⟩
        · rw [hn]
          simp
          omega
        · simp [Json.build, buildMembers]

theorem node_sound (ih : Sound k) (hp : ignoreSpace p = p)
    (h : decodeNode ignoreSpace (k + 1) p = (n + 1, r)) :
    ∃ b t q, IsValue b t ∧ p = b ++ q ∧ n + 1 = b.length ∧ r = some t.build := by
  simp only [decodeNode, hp, Nat.sub_self, Nat.zero_add] at h
  split at h
  · next hc =>
    obtain ⟨u, b, ms, q, hu, hb, hs, hn, hr⟩ := ih.object h
    obtain ⟨p, rfl⟩ := byteAt_eq hc (by decide)
    -- nothing has been skipped in front of the brace
    have hnil : u = [] := by
      cases u with
      | nil => rfl
      | cons d u =>
        have hd := hu d List.mem_cons_self
        rw [List.cons_append, List.cons.injEq] at hs
        rw [← hs.1] at hd
        exact absurd hd (by decide)
    subst hnil
    exact ⟨b, _, q, .object hb, hs, by simpa using hn, hr⟩
  · split at h
    · next hc =>
      obtain ⟨b, ts, q, hb, hs, hn, hr⟩ := ih.array h hc
      exact ⟨b, _, q, .array hb, hs, hn, hr⟩
    · split at h
      · next hc =>
        have hd : decodeString ignoreSpace p = (n + 1, r) := h
        obtain ⟨b, s, q, hb, rfl⟩ := decodeString_sound hc (by rw [hd]; exact Nat.succ_ne_zero n)
        rw [decodeString_string hb] at hd
        obtain ⟨hn, hr⟩ := Prod.mk.inj hd
        exact ⟨b, _, q, .string hb, rfl, hn.symm, hr.symm⟩
      · split at h
        · have hd : decodeNumber ignoreSpace p = (n + 1, r) := h
          obtain ⟨b, q, hb, hs, hval⟩ :=
            decodeNumber_sound hp (by rw [hd]; exact Nat.succ_ne_zero n)
          obtain ⟨hn, hr⟩ := Prod.mk.inj (hval.symm.trans hd)
          exact ⟨b, _, q, .number hb, hs, hn.symm, hr.symm⟩
        · have hd : decodeWord p = (n + 1, r) := h
          obtain ⟨b, t, q, hb, hs, hval⟩ :=
            decodeWord_sound (by rw [hd]; exact Nat.succ_ne_zero n)
          obtain ⟨hn, hr⟩ := Prod.mk.inj (hval.symm.trans hd)
          exact ⟨b, t, q, hb, hs, hn.symm, hr.symm⟩

theorem sound (k : Nat) : Sound k := by
  induction k using Nat.strongRecOn with
  | ind k ih =>
    match k, ih with
    | 0, _ => exact
      { node := fun _ h => (by cases h)
        value := fun h => (by cases h)
        next := fun h => (by cases h)
        key := fun h => (by cases h)
        colon := fun h => (by cases h)
        val := fun h => (by cases h)
        entry := fun h => (by cases h)
        array := fun h _ => (by cases h)
        object := fun h => (by cases h) }
    | k + 1, ih =>
      have hk := ih k (Nat.lt_succ_self k)
      exact
        { node := node_sound hk
          value := arrayValue_sound hk
          next := arrayNext_sound hk
          key := objectKey_sound hk
          colon := objectColon_sound hk
          val := objectVal_sound hk
          entry := objectEntry_sound hk
          array := array_sound ih
          object := object_sound ih }

end

/-- The decoder accepts exactly the texts that start with an object of the grammar, and then it
returns its length and the node built for its tree. -/
theorem dotjsonDecode_iff : dotjsonDecode s = (n + 1, r) ↔
    ∃ b ms q, IsText b ms ∧ s = b ++ q ∧ n + 1 = b.length ∧ r = some (Json.object ms).build := by
  constructor
  · intro h
    have hd : decodeObject ignoreSpace (3 * s.length + 1) s = (n + 1, r) := by
      rw [dotjsonDecode, dotjsonDecodeBy] at h
      split at h
      · next hd => exact hd.trans h
      · next hd => exact hd.trans h
      · cases h
    obtain ⟨u, b, ms, q, hu, hb, rfl, hn, hr⟩ := (sound _).object hd
    exact ⟨u ++ b, ms, q, ⟨u, b, hu, hb, rfl⟩, by simp, by simpa using hn, hr⟩
  · rintro ⟨_, ms, q, ⟨u, b, hu, hb, rfl⟩, rfl, hn, rfl⟩
    have hd := hb.reads (3 * (u ++ b ++ q).length + 1) u q hu (by simp; omega)
    rw [← List.append_assoc] at hd
    rw [dotjsonDecode, dotjsonDecodeBy, hd, ← List.length_append, ← hn]
    rfl

end Misc.Dotjson
