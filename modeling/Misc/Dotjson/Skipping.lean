import Misc.Dotjson.Insertion

namespace Misc.Dotjson
set_option autoImplicit true

/-- Both decoders have read on: what is left are again texts with and without fillers. -/
structure ReadOn (p p' q q' : Ptr) : Prop where
  inserted : Inserted q q'
  left : q <:+ p
  right : q' <:+ p'

theorem ignoreSpace_suffix (p : Ptr) : ignoreSpace p <:+ p := List.dropWhile_suffix isSpace

theorem ignoreChars_suffix (p : Ptr) : ignoreChars p <:+ p := by
  obtain ⟨q, ⟨u, -, hu⟩, hall, -⟩ := redoIgnore_spec p
  rw [ignoreChars_eq (hall _ (Nat.lt_succ_self _)) (Nat.lt_succ_self _)]
  exact ⟨u, hu.symm⟩

theorem ReadOn.trans (h : ReadOn p p' q q') (h' : ReadOn q q' r r') : ReadOn p p' r r' :=
  ⟨h'.inserted, h'.left.trans h.left, h'.right.trans h.right⟩

theorem At.readOn (hat : At (ignoreSpace s) (ignoreChars s')) :
    ReadOn s s' (ignoreSpace s) (ignoreChars s') :=
  ⟨hat.inserted, ignoreSpace_suffix s, ignoreChars_suffix s'⟩

theorem Inserted.mark (h : Inserted s s') (hc : c ∈ marks) (hs : byteAt (ignoreSpace s) 0 = c) :
    ∃ r r', ignoreSpace s = c :: r ∧ ignoreChars s' = c :: r' ∧ ReadOn s s' r r' := by
  have hat := h.at (hs ▸ (Start.mark hc).spec.2.1)
  obtain ⟨r, r', hr, hr', hi⟩ := hat.mark hc hs
  have hcons : ReadOn (ignoreSpace s) (ignoreChars s') r r' := by
    rw [hr, hr']
    exact ⟨hi, List.suffix_cons c r, List.suffix_cons c r'⟩
  exact ⟨r, r', hr, hr', hat.readOn.trans hcons⟩

/-- What one decoder reads with `k` calls and turns, the other reads with as many or more. -/
structure Follows (k : Nat) : Prop where
  node : k ≤ j → At p p' → decodeNode ignoreSpace k p = (n + 1, r) → ∃ n',
    decodeNode ignoreChars j p' = (n' + 1, r) ∧ Inserted (p.drop (n + 1)) (p'.drop (n' + 1))
  value : k ≤ j → Inserted p p' → arrayLoop ignoreSpace k .value a p = some (q, x) →
    ∃ q', arrayLoop ignoreChars j .value a p' = some (q', x) ∧ ReadOn p p' q q'
  next : k ≤ j → Inserted p p' → arrayLoop ignoreSpace k (.next d) a p = some (q, x) →
    ∃ q', arrayLoop ignoreChars j (.next d) a p' = some (q', x) ∧ ReadOn p p' q q'
  key : k ≤ j → Inserted p p' → objectLoop ignoreSpace k .key o p = some (q, y) →
    ∃ q', objectLoop ignoreChars j .key o p' = some (q', y) ∧ ReadOn p p' q q'
  colon : k ≤ j → Inserted p p' → objectLoop ignoreSpace k (.colon e) o p = some (q, y) →
    ∃ q', objectLoop ignoreChars j (.colon e) o p' = some (q', y) ∧ ReadOn p p' q q'
  val : k ≤ j → Inserted p p' → objectLoop ignoreSpace k (.value e) o p = some (q, y) →
    ∃ q', objectLoop ignoreChars j (.value e) o p' = some (q', y) ∧ ReadOn p p' q q'
  entry : k ≤ j → Inserted p p' → objectLoop ignoreSpace k (.next f) o p = some (q, y) →
    ∃ q', objectLoop ignoreChars j (.next f) o p' = some (q', y) ∧ ReadOn p p' q q'
  array : k ≤ j → Inserted p p' → decodeArray ignoreSpace k p = (n + 1, r) → ∃ n',
    decodeArray ignoreChars j p' = (n' + 1, r) ∧ Inserted (p.drop (n + 1)) (p'.drop (n' + 1))
  object : k ≤ j → Inserted p p' → decodeObject ignoreSpace k p = (n + 1, r) → ∃ n',
    decodeObject ignoreChars j p' = (n' + 1, r) ∧ Inserted (p.drop (n + 1)) (p'.drop (n' + 1))

section
variable {k : Nat}

theorem exists_pred (hj : k + 1 ≤ j) : ∃ i, j = i + 1 ∧ k ≤ i :=
  ⟨j - 1, by omega, by omega⟩

theorem arrayLoop_done (hk : k ≤ j) (h : arrayLoop ignoreSpace k .done (some a) p = some (q, x))
    (p' : Ptr) : p = q ∧ arrayLoop ignoreChars j .done (some a) p' = some (p', x) := by
  match k, j, hk, h with
  | k + 1, j + 1, _, h =>
    cases h
    exact ⟨rfl, rfl⟩

theorem arrayNext_follows (ih : Follows k) (hj : k + 1 ≤ j) (hs : Inserted s s')
    (h : arrayLoop ignoreSpace (k + 1) (.next d) a s = some (q, x)) :
    ∃ q', arrayLoop ignoreChars j (.next d) a s' = some (q', x) ∧ ReadOn s s' q q' := by
  obtain ⟨j, rfl, hk⟩ := exists_pred hj
  rw [arrayLoop] at h
  · split at h
    · cases h
    · next hne =>
      rw [arrayLoop, if_neg (hs.byte_ne hne)]
      · dsimp only at h ⊢
        split at h
        · next hc =>
          obtain ⟨r, r', hr, hr', hon⟩ := hs.mark (by decide) hc
          rw [hr] at h
          obtain ⟨q', hq, hleft⟩ := ih.value hk hon.inserted h
          refine ⟨q', ?_, hon.trans hleft⟩
          rw [hr', byteAt_zero, if_pos rfl]
          exact hq
        · split at h
          · next hc =>
            obtain ⟨r, r', hr, hr', hon⟩ := hs.mark (by decide) hc
            rw [hr] at h
            obtain ⟨rfl, hq⟩ := arrayLoop_done hk h r'
            refine ⟨r', ?_, hon⟩
            rw [hr', byteAt_zero, if_neg (by decide), if_pos rfl]
            exact hq
          · cases h
      · intro h
        cases h
  · intro h
    cases h

theorem decodeNode_slash (h : decodeNode ignoreSpace k p = (n + 1, r)) (hp : ignoreSpace p = p) :
    byteAt p 0 ≠ ch '/' := by
  intro hslash
  obtain ⟨q, rfl⟩ := byteAt_eq hslash (by decide)
  match k, h with
  | k + 1, h =>
    rw [decodeNode_token ⟨by decide, by decide⟩, if_neg (by decide), if_neg (by decide),
      if_neg (by decide), if_neg (by decide)] at h
    have hword := decodeWord_letter (p := ch '/' :: q) (by rw [h]; exact Nat.succ_ne_zero n)
    rw [byteAt_zero] at hword
    exact absurd hword (by decide)

/-- A value is read behind what is skipped. -/
theorem Follows.skip_node (ih : Follows k) (hk : k ≤ j) (hs : Inserted s s')
    (h : decodeNode ignoreSpace k (ignoreSpace s) = (n + 1, r)) :
    byteAt (ignoreChars s') 0 = byteAt (ignoreSpace s) 0 ∧ ∃ n',
      decodeNode ignoreChars j (ignoreChars s') = (n' + 1, r) ∧
      ReadOn s s' ((ignoreSpace s).drop (n + 1)) ((ignoreChars s').drop (n' + 1)) := by
  have hat := hs.at (decodeNode_slash h (ignoreSpace_idem s))
  obtain ⟨n', hn, hi⟩ := ih.node hk hat h
  exact ⟨hat.byteAt, n', hn, hat.readOn.trans ⟨hi, List.drop_suffix _ _, List.drop_suffix _ _⟩⟩

theorem arrayValue_follows (ih : Follows k) (hj : k + 1 ≤ j) (hs : Inserted s s')
    (h : arrayLoop ignoreSpace (k + 1) .value a s = some (q, x)) :
    ∃ q', arrayLoop ignoreChars j .value a s' = some (q', x) ∧ ReadOn s s' q q' := by
  obtain ⟨j, rfl, hk⟩ := exists_pred hj
  rw [arrayLoop] at h
  · split at h
    · cases h
    · next hne =>
      rw [arrayLoop, if_neg (hs.byte_ne hne)]
      · dsimp only at h ⊢
        split at h
        · next hc =>
          obtain ⟨r, r', hr, hr', hon⟩ := hs.mark (by decide) hc
          cases a with
          | some _ => cases h
          | none =>
            dsimp only at h
            rw [hr] at h
            obtain ⟨rfl, hq⟩ := arrayLoop_done hk h r'
            refine ⟨r', ?_, hon⟩
            rw [hr', byteAt_zero, if_pos rfl]
            exact hq
        · next hc =>
          cases hd : decodeNode ignoreSpace k (ignoreSpace s) with
          | mk n r =>
            rw [hd] at h
            match n, r, h, hd with
            | n + 1, some d, h, hd =>
              obtain ⟨hbyte, n', hn, hon⟩ := ih.skip_node hk hs hd
              obtain ⟨q', hq, hleft⟩ := ih.next hk hon.inserted h
              refine ⟨q', ?_, hon.trans hleft⟩
              rw [hbyte, if_neg hc, hn]
              exact hq
      · intro h
        cases h
  · intro h
    cases h

theorem objectLoop_done (hk : k ≤ j)
    (h : objectLoop ignoreSpace k .done (some o) p = some (q, y)) (p' : Ptr) :
    p = q ∧ objectLoop ignoreChars j .done (some o) p' = some (p', y) := by
  match k, j, hk, h with
  | k + 1, j + 1, _, h =>
    cases h
    exact ⟨rfl, rfl⟩

theorem objectEntry_follows (ih : Follows k) (hj : k + 1 ≤ j) (hs : Inserted s s')
    (h : objectLoop ignoreSpace (k + 1) (.next f) o s = some (q, y)) :
    ∃ q', objectLoop ignoreChars j (.next f) o s' = some (q', y) ∧ ReadOn s s' q q' := by
  obtain ⟨j, rfl, hk⟩ := exists_pred hj
  rw [objectLoop] at h
  · split at h
    · cases h
    · next hne =>
      rw [objectLoop, if_neg (hs.byte_ne hne)]
      · dsimp only at h ⊢
        split at h
        · next hc =>
          obtain ⟨r, r', hr, hr', hon⟩ := hs.mark (by decide) hc
          rw [hr] at h
          obtain ⟨q', hq, hleft⟩ := ih.key hk hon.inserted h
          refine ⟨q', ?_, hon.trans hleft⟩
          rw [hr', byteAt_zero, if_pos rfl]
          exact hq
        · split at h
          · next hc =>
            obtain ⟨r, r', hr, hr', hon⟩ := hs.mark (by decide) hc
            rw [hr] at h
            obtain ⟨rfl, hq⟩ := objectLoop_done hk h r'
            refine ⟨r', ?_, hon⟩
            rw [hr', byteAt_zero, if_neg (by decide), if_pos rfl]
            exact hq
          · cases h
      · intro h
        cases h
  · intro h
    cases h

theorem objectVal_follows (ih : Follows k) (hj : k + 1 ≤ j) (hs : Inserted s s')
    (h : objectLoop ignoreSpace (k + 1) (.value e) o s = some (q, y)) :
    ∃ q', objectLoop ignoreChars j (.value e) o s' = some (q', y) ∧ ReadOn s s' q q' := by
  obtain ⟨j, rfl, hk⟩ := exists_pred hj
  rw [objectLoop] at h
  · split at h
    · cases h
    · next hne =>
      rw [objectLoop, if_neg (hs.byte_ne hne)]
      · cases hd : decodeNode ignoreSpace k (ignoreSpace s) with
        | mk n r =>
          dsimp only at h ⊢
          rw [hd] at h
          match n, r, h, hd with
          | n + 1, some d, h, hd =>
            obtain ⟨-, n', hn, hon⟩ := ih.skip_node hk hs hd
            obtain ⟨q', hq, hleft⟩ := ih.entry hk hon.inserted h
            refine ⟨q', ?_, hon.trans hleft⟩
            rw [hn]
            exact hq
      · intro h
        cases h
  · intro h
    cases h

theorem objectColon_follows (ih : Follows k) (hj : k + 1 ≤ j) (hs : Inserted s s')
    (h : objectLoop ignoreSpace (k + 1) (.colon e) o s = some (q, y)) :
    ∃ q', objectLoop ignoreChars j (.colon e) o s' = some (q', y) ∧ ReadOn s s' q q' := by
  obtain ⟨j, rfl, hk⟩ := exists_pred hj
  rw [objectLoop] at h
  · split at h
    · cases h
    · next hne =>
      rw [objectLoop, if_neg (hs.byte_ne hne)]
      · dsimp only at h ⊢
        split at h
        · next hc =>
          obtain ⟨r, r', hr, hr', hon⟩ := hs.mark (by decide) hc
          rw [hr] at h
          obtain ⟨q', hq, hleft⟩ := ih.val hk hon.inserted h
          refine ⟨q', ?_, hon.trans hleft⟩
          rw [hr', byteAt_zero, if_pos rfl]
          exact hq
        · cases h
      · intro h
        cases h
  · intro h
    cases h

theorem objectKey_follows (ih : Follows k) (hj : k + 1 ≤ j) (hs : Inserted s s')
    (h : objectLoop ignoreSpace (k + 1) .key o s = some (q, y)) :
    ∃ q', objectLoop ignoreChars j .key o s' = some (q', y) ∧ ReadOn s s' q q' := by
  obtain ⟨j, rfl, hk⟩ := exists_pred hj
  rw [objectLoop] at h
  · split at h
    · cases h
    · next hne =>
      rw [objectLoop, if_neg (hs.byte_ne hne)]
      · dsimp only at h ⊢
        split at h
        · next hc =>
          have hat := hs.at (by rw [hc]; decide)
          cases hkey : decodeKey (ignoreSpace s) with
          | none =>
            rw [hkey] at h
            cases h
          | some r =>
            obtain ⟨e, p⟩ := r
            rw [hkey] at h
            obtain ⟨p', hp', hi, hleft, hright⟩ := hat.decodeKey hc hkey
            have hon := hat.readOn.trans ⟨hi, hleft, hright⟩
            obtain ⟨q', hq, hleft⟩ := ih.colon hk hon.inserted h
            refine ⟨q', ?_, hon.trans hleft⟩
            rw [hat.byteAt, if_pos hc, hp']
            exact hq
        · split at h
          · next hc =>
            obtain ⟨r, r', hr, hr', hon⟩ := hs.mark (by decide) hc
            cases o with
            | some _ => cases h
            | none =>
              dsimp only at h
              rw [hr] at h
              obtain ⟨rfl, hq⟩ := objectLoop_done hk h r'
              refine ⟨r', ?_, hon⟩
              rw [hr', byteAt_zero, if_neg (by decide), if_pos rfl]
              exact hq
          · cases h
      · intro h
        cases h
  · intro h
    cases h

theorem ReadOn.count (h : ReadOn s s' q q') (hlt : q'.length < s'.length)
    (hn : n + 1 = s.length - q.length) :
    ∃ n', s'.length - q'.length = n' + 1 ∧ Inserted (s.drop (n + 1)) (s'.drop (n' + 1)) := by
  obtain ⟨n', hn'⟩ := Nat.exists_eq_add_one.2 (Nat.sub_pos_of_lt hlt)
  refine ⟨n', hn', ?_⟩
  rw [hn, ← hn', ← List.suffix_iff_eq_drop.1 h.left, ← List.suffix_iff_eq_drop.1 h.right]
  exact h.inserted

theorem ReadOn.length_lt (h : ReadOn r r' q q') (hs : ignoreChars s' = c :: r') :
    q'.length < s'.length := by
  have hlen := (ignoreChars_suffix s').length_le
  rw [hs, List.length_cons] at hlen
  have hle := h.right.length_le
  omega

theorem array_follows (ih : ∀ i, i < k → Follows i) (hk : k ≤ j) (hs : Inserted s s')
    (h : decodeArray ignoreSpace k s = (n + 1, r)) :
    ∃ n', decodeArray ignoreChars j s' = (n' + 1, r) ∧
      Inserted (s.drop (n + 1)) (s'.drop (n' + 1)) := by
  match k, j, hk, h with
  | k + 1, j + 1, hk, h =>
    obtain ⟨q, x, hl, hn, rfl⟩ := arrayResult_some h
    match k, j, hk, hl with
    | k + 1, j + 1, hk, hl =>
      rw [arrayLoop] at hl
      · split at hl
        · cases hl
        · next hne =>
          dsimp only at hl
          split at hl
          · next hc =>
            obtain ⟨r, r', hr, hr', hon⟩ := hs.mark (by decide) hc
            rw [hr] at hl
            obtain ⟨q', hq, hleft⟩ :=
              (ih k (by omega)).value (show k ≤ j by omega) hon.inserted hl
            obtain ⟨n', hcount, hi⟩ := (hon.trans hleft).count (hleft.length_lt hr') hn
            have hstart : arrayLoop ignoreChars (j + 1) .start none s' = some (q', x) := by
              rw [arrayLoop, if_neg (hs.byte_ne hne)]
              · dsimp only
                rw [hr', byteAt_zero, if_pos rfl]
                exact hq
              · intro h
                cases h
            refine ⟨n', ?_, hi⟩
            rw [decodeArray, hstart, ← hcount]
            rfl
          · cases hl
      · intro h
        cases h

theorem object_follows (ih : ∀ i, i < k → Follows i) (hk : k ≤ j) (hs : Inserted s s')
    (h : decodeObject ignoreSpace k s = (n + 1, r)) :
    ∃ n', decodeObject ignoreChars j s' = (n' + 1, r) ∧
      Inserted (s.drop (n + 1)) (s'.drop (n' + 1)) := by
  match k, j, hk, h with
  | k + 1, j + 1, hk, h =>
    obtain ⟨q, y, hl, hn, rfl⟩ := objectResult_some h
    match k, j, hk, hl with
    | k + 1, j + 1, hk, hl =>
      rw [objectLoop] at hl
      · split at hl
        · cases hl
        · next hne =>
          dsimp only at hl
          split at hl
          · next hc =>
            obtain ⟨r, r', hr, hr', hon⟩ := hs.mark (by decide) hc
            rw [hr] at hl
            obtain ⟨q', hq, hleft⟩ := (ih k (by omega)).key (show k ≤ j by omega) hon.inserted hl
            obtain ⟨n', hcount, hi⟩ := (hon.trans hleft).count (hleft.length_lt hr') hn
            have hstart : objectLoop ignoreChars (j + 1) .start none s' = some (q', y) := by
              rw [objectLoop, if_neg (hs.byte_ne hne)]
              · dsimp only
                rw [hr', byteAt_zero, if_pos rfl]
                exact hq
              · intro h
                cases h
            refine ⟨n', ?_, hi⟩
            rw [decodeObject, hstart, ← hcount]
            rfl
          · cases hl
      · intro h
        cases h

theorem node_follows (ih : Follows k) (hj : k + 1 ≤ j) (hat : At p p')
    (h : decodeNode ignoreSpace (k + 1) p = (n + 1, r)) : ∃ n',
      decodeNode ignoreChars j p' = (n' + 1, r) ∧
      Inserted (p.drop (n + 1)) (p'.drop (n' + 1)) := by
  obtain ⟨j, rfl, hk⟩ := exists_pred hj
  rw [decodeNode] at h
  rw [decodeNode]
  simp only [hat.skip, hat.skips, hat.byteAt, Nat.sub_self, Nat.zero_add,
    Prod.eta] at h ⊢
  -- a lexeme is as long in both texts
  have hlexeme {l l' : Decoded} (hl : SameLexeme p p' l l') (h : l = (n + 1, r)) :
      ∃ n', l' = (n' + 1, r) ∧ Inserted (p.drop (n + 1)) (p'.drop (n' + 1)) := by
    obtain ⟨heq, hi⟩ := hl (by rw [h]; exact Nat.succ_ne_zero n)
    rw [h] at heq hi
    exact ⟨n, heq, hi⟩
  split at h
  · next hc =>
    rw [if_pos hc]
    exact ih.object hk hat.inserted h
  · next hobject =>
    rw [if_neg hobject]
    split at h
    · next hc =>
      rw [if_pos hc]
      exact ih.array hk hat.inserted h
    · next harray =>
      rw [if_neg harray]
      split at h
      · next hc =>
        rw [if_pos hc]
        exact hlexeme (hat.decodeString hc) h
      · next hstring =>
        rw [if_neg hstring]
        split at h
        · next hc =>
          rw [if_pos hc]
          exact hlexeme (hat.decodeNumber (by rwa [Bool.or_eq_true] at hc)) h
        · next hnumber =>
          rw [if_neg hnumber]
          exact hlexeme hat.decodeWord h

theorem follows (k : Nat) : Follows k := by
  induction k using Nat.strongRecOn with
  | ind k ih =>
    match k, ih with
    | 0, _ => exact
      { node := fun _ _ h => (by cases h)
        value := fun _ _ h => (by cases h)
        next := fun _ _ h => (by cases h)
        key := fun _ _ h => (by cases h)
        colon := fun _ _ h => (by cases h)
        val := fun _ _ h => (by cases h)
        entry := fun _ _ h => (by cases h)
        array := fun _ _ h => (by cases h)
        object := fun _ _ h => (by cases h) }
    | k + 1, ih =>
      have hk := ih k (Nat.lt_succ_self k)
      exact
        { node := node_follows hk
          value := arrayValue_follows hk
          next := arrayNext_follows hk
          key := objectKey_follows hk
          colon := objectColon_follows hk
          val := objectVal_follows hk
          entry := objectEntry_follows hk
          array := array_follows ih
          object := object_follows ih }

end

/-- A text that is accepted builds the same tree with comments in it, and what `ignore_chars`
skips has an end, which is not behind the NUL. -/
theorem comments_skipped :
    (∀ s s' n node, dotjsonDecode s = (n + 1, some node) → Inserted s s' →
      ∃ n', dotjsonDecodeBy ignoreChars s' = (n' + 1, some node)) ∧
    ∀ p, ∃ q, (∀ k, p.length < k → redoIgnore k p = some q) ∧ ∃ u, 0 ∉ u ∧ p = u ++ q := by
  constructor
  · intro s s' n node h hs
    have hlen := hs.length_le
    have hd : decodeObject ignoreSpace (3 * s.length + 1) s = (n + 1, some node) := by
      rw [dotjsonDecode, dotjsonDecodeBy] at h
      split at h
      · next hd => exact hd.trans h
      · next hd => exact hd.trans h
      · cases h
    obtain ⟨n', hn, -⟩ :=
      (follows _).object (show 3 * s.length + 1 ≤ 3 * s'.length + 1 by omega) hs hd
    refine ⟨n', ?_⟩
    obtain ⟨b, ms, q, -, -, -, hnode⟩ := dotjsonDecode_iff.1 h
    cases hnode
    rw [dotjsonDecodeBy, hn]
    rfl
  · intro p
    obtain ⟨q, hq, hall, -⟩ := redoIgnore_spec p
    exact ⟨q, hall, hq⟩

def bare : Ptr :=
  [ch '{', ch '"', ch 'a', ch '"', ch ':', ch '1', ch ',', ch '"', ch 'b', ch '"',
    ch ':', ch '2', ch '}']

def commented : Ptr :=
  [ch '{', ch '/', ch '*', ch 'x', ch '*', ch '/', ch '"', ch 'a', ch '"',
    ch ':', ch '1', ch ',',
    ch '/', ch '/', ch 'y', ch '\n', ch '"', ch 'b', ch '"', ch ':', ch '2', ch '}']

theorem Inserted.cons_mark (hc : c ∈ marks) (h : Inserted p p') :
    Inserted (c :: p) (c :: p') := by
  refine .token (.mark hc) ?_ h
  intro hn
  obtain ⟨d, t, heq, hd⟩ := hn.head
  cases heq
  exact absurd hd (mark_ne hc).1

theorem inserted_commented : Inserted bare commented := by
  have hname : IsString [ch '"', ch 'a', ch '"'] [ch 'a'] :=
    ⟨_, .plain (by decide) (by decide) (by decide) .nil, rfl⟩
  have hnumber : IsNumber [ch '1'] :=
    ⟨[], [ch '1'], [], [], .inl rfl, ⟨by decide, List.forall_mem_singleton.2 rfl⟩,
      .inl rfl, .inl rfl, rfl⟩
  have hblock : Filler [ch '/', ch '*', ch 'x', ch '*', ch '/'] :=
    .block (b := [ch 'x']) (by decide) (fun h => absurd h.length_le (by decide)) .nil
  have hline : Filler [ch '/', ch '/', ch 'y', ch '\n'] :=
    .line (b := [ch 'y']) (by decide) (by decide) .nil
  refine .cons_mark (by decide) (.fill hblock ?_)
  refine .token (.string hname) (fun _ => .of_byte (by decide) _) (.cons_mark (by decide) ?_)
  refine .token (.number hnumber) (fun _ => .of_byte (by decide) _) ?_
  exact .cons_mark (by decide) (.fill hline .rest)

theorem comments_skipped_commented : ∃ node n', dotjsonDecode bare = (13, some node) ∧
    dotjsonDecodeBy ignoreChars commented = (n' + 1, some node) := by
  have hbare : dotjsonDecode bare = (12 + 1, some _) := rfl
  obtain ⟨n', hn⟩ := comments_skipped.1 bare commented 12 _ hbare inserted_commented
  exact ⟨_, n', hbare, hn⟩

end Misc.Dotjson
