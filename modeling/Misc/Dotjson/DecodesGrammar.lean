import Misc.Dotjson.Soundness
import Misc.Dotjson.Storage

namespace Misc.Dotjson
set_option autoImplicit true

mutual

def Json.Within (n : Nat) : Json → Prop
  | .object ms => ms.length ≤ n ∧ MembersWithin n ms
  | .array ts => ElementsWithin n ts
  | _ => True

def MembersWithin (n : Nat) : List (List UInt8 × Json) → Prop
  | [] => True
  | (_, t) :: ms => t.Within n ∧ MembersWithin n ms

def ElementsWithin (n : Nat) : List Json → Prop
  | [] => True
  | t :: ts => t.Within n ∧ ElementsWithin n ts

end

mutual

def Json.count : Json → Nat
  | .object ms => membersCount ms
  | .array ts => elementsCount ts
  | _ => 0

def membersCount : List (List UInt8 × Json) → Nat
  | [] => 0
  | (_, t) :: ms => t.count + 1 + membersCount ms

def elementsCount : List Json → Nat
  | [] => 0
  | t :: ts => t.count + elementsCount ts

end

mutual

theorem Json.Same.refl : ∀ t : Json, t.Same t
  | .null => .null
  | .bool _ => .bool
  | .number _ => .number
  | .string _ => .string
  | .object ms => .object (Json.SameMembers.refl ms)
  | .array ts => .array (Json.SameElements.refl ts)

theorem Json.SameMembers.refl : ∀ ms : List (List UInt8 × Json), Json.SameMembers ms ms
  | [] => .nil
  | (_, t) :: ms => .cons (Json.Same.refl t) (Json.SameMembers.refl ms)

theorem Json.SameElements.refl : ∀ ts : List Json, Json.SameElements ts ts
  | [] => .nil
  | t :: ts => .cons (Json.Same.refl t) (Json.SameElements.refl ts)

end

theorem Json.SameMembers.of_perm (h : List.Perm ms ms') : Json.SameMembers ms ms' := by
  induction h with
  | nil => exact .nil
  | cons m _ ih => exact .cons (Json.Same.refl m.2) ih
  | swap m m' ms => exact .swap
  | trans _ _ ih ih' => exact .trans ih ih'

mutual

theorem Json.Same.count : Json.Same t t' → t.count = t'.count
  | .null => rfl
  | .bool => rfl
  | .number => rfl
  | .string => rfl
  | .object h => h.count
  | .array h => h.count

theorem Json.SameMembers.count : Json.SameMembers ms ms' → membersCount ms = membersCount ms'
  | .nil => rfl
  | .cons h hs => by rw [membersCount, membersCount, h.count, hs.count]
  | @Json.SameMembers.swap (s, t) (s', t') ms => by
    simp only [membersCount]
    omega
  | .trans h h' => h.count.trans h'.count

theorem Json.SameElements.count : Json.SameElements ts ts' → elementsCount ts = elementsCount ts'
  | .nil => rfl
  | .cons h hs => by rw [elementsCount, elementsCount, h.count, hs.count]

end

/-- The entry made for a member. -/
def entryOf (m : List UInt8 × Json) : Entry Node := ⟨.of m.1, m.2.build⟩

def Entry.view (e : Entry Node) : List UInt8 × Json := (e.key.take e.keylen, e.val.view)

theorem entryOf_view (m : List UInt8 × Json) : (entryOf m).view = (m.1, m.2.build.view) := by
  simp [entryOf, Entry.view, Key.of]

theorem slotsView_eq (es : List (Option (Entry Node))) :
    slotsView es = (filled es).map Entry.view := by
  induction es with
  | nil => simp [slotsView, filled]
  | cons x es ih =>
    cases x with
    | none => rw [slotsView, ih, filled]
    | some e => rw [slotsView, ih, filled, List.map_cons, Entry.view]

theorem buildMembers_eq (o : Option (Table Node)) (ms : List (List UInt8 × Json)) :
    buildMembers o ms = addAll o (ms.map entryOf) := by
  induction ms generalizing o with
  | nil => rfl
  | cons m ms ih => rw [buildMembers, ih]; rfl

theorem view_object (ms : List (List UInt8 × Json)) :
    (ms = [] ∧ (Json.object ms).build.view = .object []) ∨
      ∃ o, addAll none (ms.map entryOf) = some o ∧
        (Json.object ms).build.view = .object (o.stored.map Entry.view) := by
  cases ms with
  | nil =>
      exact .inl ⟨rfl, by simp [Json.build, buildMembers, objectGrow, Table.fresh, Node.view,
      slotsView]⟩
  | cons m ms =>
    obtain ⟨o, ho⟩ := addAll_cons_some (entryOf m) (ms.map entryOf)
    refine .inr ⟨o, ho, ?_⟩
    have hb : (Json.object (m :: ms)).build = .object o := by
      rw [Json.build, buildMembers_eq, List.map_cons, ho]
      rfl
    rw [hb, Node.view, slotsView_eq]
    rfl

theorem arrayAdd_items (a : Option (Items Node)) (x : Node) :
    (arrayAdd a x).items = (a.elim [] Items.items) ++ [x] := by
  cases a with
  | none => rfl
  | some a =>
    simp only [arrayAdd, arrayGrow, Option.elim_some]
    repeat' split
    all_goals rfl

theorem buildElements_items (a : Option (Items Node)) (ts : List Json) :
    (buildElements a ts).elim [] Items.items = a.elim [] Items.items ++ ts.map Json.build := by
  induction ts generalizing a with
  | nil => simp [buildElements]
  | cons t ts ih => rw [buildElements, ih, Option.elim_some, arrayAdd_items]; simp

theorem itemsView_eq (xs : List Node) : itemsView xs = xs.map Node.view := by
  induction xs with
  | nil => rfl
  | cons x xs ih => rw [itemsView, ih, List.map_cons]

theorem view_array (ts : List Json) :
    (Json.array ts).build.view = .array (ts.map fun t => t.build.view) := by
  have hi := buildElements_items none ts
  rw [Json.build, Node.view, itemsView_eq]
  cases hb : buildElements none ts with
  | none =>
    rw [hb] at hi
    have : ts.map Json.build = [] := hi.symm
    rw [List.map_eq_nil_iff] at this
    subst this
    rfl
  | some a =>
    rw [hb] at hi
    have : a.items = ts.map Json.build := hi
    rw [Option.getD_some, this, List.map_map]
    rfl

/-- The members as they are seen once each of their values has been built. -/
def viewMembers (ms : List (List UInt8 × Json)) : List (List UInt8 × Json) :=
  (ms.map entryOf).map Entry.view

theorem viewMembers_cons (m : List UInt8 × Json) (ms : List (List UInt8 × Json)) :
    viewMembers (m :: ms) = (m.1, m.2.build.view) :: viewMembers ms := by
  rw [viewMembers, List.map_cons, List.map_cons, entryOf_view]
  rfl

theorem view_object_perm (hlen : ms.length ≤ 2 ^ 32) :
    ∃ ms', (Json.object ms).build.view = .object ms' ∧ ms'.Perm (viewMembers ms) := by
  rcases view_object ms with ⟨rfl, hv⟩ | ⟨o, ho, hv⟩
  · exact ⟨[], hv, .refl _⟩
  · obtain ⟨_, _, _, hp⟩ := addAll_perm (by rwa [List.length_map]) ho
    exact ⟨_, hv, hp.map _⟩

theorem view_object_subperm (ms : List (List UInt8 × Json)) :
    ∃ ms', (Json.object ms).build.view = .object ms' ∧ ms'.Subperm (viewMembers ms) ∧
      (2 ^ 32 < ms.length → ms'.length < ms.length) := by
  rcases view_object ms with ⟨rfl, hv⟩ | ⟨o, ho, hv⟩
  · exact ⟨[], hv, .refl _, fun h => absurd h (Nat.not_lt_zero _)⟩
  · obtain ⟨l, hp, hs⟩ := addAll_subperm ho
    refine ⟨_, hv, ⟨l.map Entry.view, hp.map _, hs.map _⟩, ?_⟩
    intro hlt
    have hl := addAll_lost (by rwa [List.length_map]) ho
    rwa [List.length_map] at hl ⊢

mutual

/-- A tree without an overfull object is found again in the node built for it. -/
theorem Json.build_same : ∀ t : Json, t.Within (2 ^ 32) → t.build.view.Same t
  | .null, _ => .null
  | .bool _, _ => .bool
  | .number _, _ => .number
  | .string s, _ => by
    rw [Json.build, Node.view, List.take_length]
    exact .string
  | .object ms, h => by
    obtain ⟨ms', hv, hp⟩ := view_object_perm h.1
    rw [hv]
    exact .object (.trans (.of_perm hp) (members_same ms h.2))
  | .array ts, h => by
    rw [view_array]
    exact .array (elements_same ts h)

theorem members_same : ∀ ms : List (List UInt8 × Json), MembersWithin (2 ^ 32) ms →
    Json.SameMembers (viewMembers ms) ms
  | [], _ => .nil
  | (s, t) :: ms, h => by
    rw [viewMembers_cons]
    exact .cons (t.build_same h.1) (members_same ms h.2)

theorem elements_same : ∀ ts : List Json, ElementsWithin (2 ^ 32) ts →
    Json.SameElements (ts.map fun t => t.build.view) ts
  | [], _ => .nil
  | t :: ts, h => .cons (t.build_same h.1) (elements_same ts h.2)

end

theorem membersCount_sublist (h : List.Sublist ms ms') :
    membersCount ms + (ms'.length - ms.length) ≤ membersCount ms' := by
  induction h with
  | slnil => exact Nat.le_refl _
  | @cons l l' m hs ih =>
    have hle := hs.length_le
    simp only [membersCount, List.length_cons]
    omega
  | cons_cons m hs ih =>
    simp only [membersCount, List.length_cons]
    omega

theorem membersCount_subperm (h : List.Subperm ms ms') :
    membersCount ms + (ms'.length - ms.length) ≤ membersCount ms' := by
  obtain ⟨l, hp, hs⟩ := h
  have hc := membersCount_sublist hs
  rwa [hp.length_eq, (Json.SameMembers.of_perm hp).count] at hc

theorem viewMembers_length (ms : List (List UInt8 × Json)) :
    (viewMembers ms).length = ms.length := by
  rw [viewMembers, List.length_map, List.length_map]

mutual

/-- Members are only ever lost, and in an overfull object they are. -/
theorem Json.build_count : ∀ t : Json, t.build.view.count ≤ t.count ∧
    (t.build.view.count = t.count → t.Within (2 ^ 32))
  | .null => ⟨Nat.le_refl _, fun _ => trivial⟩
  | .bool _ => ⟨Nat.le_refl _, fun _ => trivial⟩
  | .number _ => ⟨Nat.le_refl _, fun _ => trivial⟩
  | .string _ => ⟨Nat.le_refl _, fun _ => trivial⟩
  | .object ms => by
    obtain ⟨ms', hv, hp, hlost⟩ := view_object_subperm ms
    have hle := membersCount_subperm hp
    obtain ⟨hms, heq⟩ := members_count ms
    rw [viewMembers_length] at hle
    rw [hv, Json.count, Json.count]
    refine ⟨by omega, ?_⟩
    intro h
    refine ⟨?_, heq (by omega)⟩
    apply Nat.le_of_not_lt
    intro hlt
    have := hlost hlt
    omega
  | .array ts => by
    rw [view_array, Json.count, Json.count]
    exact elements_count ts

theorem members_count : ∀ ms : List (List UInt8 × Json),
    membersCount (viewMembers ms) ≤ membersCount ms ∧
      (membersCount (viewMembers ms) = membersCount ms → MembersWithin (2 ^ 32) ms)
  | [] => ⟨Nat.le_refl _, fun _ => trivial⟩
  | (s, t) :: ms => by
    obtain ⟨ht, heq⟩ := t.build_count
    obtain ⟨hms, heq'⟩ := members_count ms
    rw [viewMembers_cons, membersCount, membersCount]
    dsimp only
    refine ⟨by omega, ?_⟩
    intro h
    exact ⟨heq (by omega), heq' (by omega)⟩

theorem elements_count : ∀ ts : List Json,
    elementsCount (ts.map fun t => t.build.view) ≤ elementsCount ts ∧
      (elementsCount (ts.map fun t => t.build.view) = elementsCount ts →
        ElementsWithin (2 ^ 32) ts)
  | [] => ⟨Nat.le_refl _, fun _ => trivial⟩
  | t :: ts => by
    obtain ⟨ht, heq⟩ := t.build_count
    obtain ⟨hts, heq'⟩ := elements_count ts
    rw [List.map_cons, elementsCount, elementsCount]
    refine ⟨by omega, ?_⟩
    intro h
    exact ⟨heq (by omega), heq' (by omega)⟩

end

theorem build_same_iff (t : Json) : t.build.view.Same t ↔ t.Within (2 ^ 32) := by
  constructor
  · intro h
    exact t.build_count.2 h.count
  · exact t.build_same

/-- The decoder accepts the texts of the grammar and builds their trees. -/
structure DecodesGrammar (s : List UInt8) : Prop where
  count : ∀ n, n ≠ 0 →
    ((dotjsonDecode s).1 = n ↔ n ≤ s.length ∧ ∃ ms, IsText (s.take n) ms)
  tree : ∀ n ms, n ≤ s.length → IsText (s.take n) ms →
    ∃ node, dotjsonDecode s = (n, some node) ∧ node.view.Same (.object ms)

theorem IsText.length_pos (h : IsText b ms) : 0 < b.length := by
  obtain ⟨u, x, _, hx, rfl⟩ := h
  obtain ⟨r, rfl⟩ := hx.brace
  rw [List.length_append, List.length_cons]
  omega

theorem dotjsonDecode_text (hn : n ≤ s.length) (h : IsText (s.take n) ms) :
    dotjsonDecode s = (n, some (Json.object ms).build) := by
  have hlen : (s.take n).length = n := List.length_take_of_le hn
  have hpos := h.length_pos
  rw [hlen] at hpos
  obtain ⟨n, rfl⟩ := Nat.exists_eq_add_of_lt hpos
  rw [Nat.zero_add] at *
  exact dotjsonDecode_iff.2 ⟨_, ms, s.drop (n + 1), h, (List.take_append_drop _ s).symm,
    hlen.symm, rfl⟩

theorem dotjsonDecode_count (hn : n ≠ 0) :
    (dotjsonDecode s).1 = n ↔ n ≤ s.length ∧ ∃ ms, IsText (s.take n) ms := by
  constructor
  · intro h
    obtain ⟨n, rfl⟩ := Nat.exists_eq_succ_of_ne_zero hn
    obtain ⟨b, ms, q, hb, rfl, hlen, _⟩ := dotjsonDecode_iff.1 (Prod.ext h rfl)
    rw [Nat.succ_eq_add_one, hlen, List.take_left]
    exact ⟨by simp, ms, hb⟩
  · rintro ⟨hle, ms, hms⟩
    rw [dotjsonDecode_text hle hms]

/-- The decoder decides the grammar on every input, and the tree that it builds is the parse tree
exactly if no object of the text has more than `2 ^ 32` members. -/
theorem decodes_grammar_iff (s : List UInt8) : DecodesGrammar s ↔
    ∀ n ms, n ≤ s.length → IsText (s.take n) ms → (Json.object ms).Within (2 ^ 32) := by
  constructor
  · intro h n ms hn hms
    obtain ⟨node, hd, hs⟩ := h.tree n ms hn hms
    rw [dotjsonDecode_text hn hms] at hd
    cases hd
    exact (build_same_iff _).1 hs
  · intro h
    refine ⟨fun n hn => dotjsonDecode_count hn, ?_⟩
    intro n ms hn hms
    exact ⟨_, dotjsonDecode_text hn hms, (build_same_iff _).2 (h n ms hn hms)⟩

def member : List UInt8 := [ch '"', ch '"', ch ':', ch '0']

def membersText : Nat → List UInt8
  | 0 => member
  | n + 1 => member ++ ch ',' :: membersText n

theorem isMember_member : IsMember member ([], .number [ch '0']) := by
  have hs : Space [] := fun _ h => absurd h List.not_mem_nil
  have hd : Digits [ch '0'] := ⟨List.cons_ne_nil _ _, by simp [isDigit]⟩
  have hv : IsValue [ch '0'] (.number [ch '0']) :=
    .number ⟨[], [ch '0'], [], [], .inl rfl, hd, .inl rfl, .inl rfl, rfl⟩
  exact .mk hs (s := []) (k := [ch '"', ch '"']) ⟨[], .nil, rfl⟩ hs (.mk hs hv hs)

theorem isMembers_membersText (n : Nat) :
    IsMembers (membersText n) (List.replicate (n + 1) ([], .number [ch '0'])) := by
  induction n with
  | zero => exact .one isMember_member
  | succ n ih => exact .cons isMember_member ih

/-- The text of an object with `2 ^ 32 + 1` members. -/
def crowded : List UInt8 := ch '{' :: (membersText (2 ^ 32) ++ [ch '}'])

theorem isText_crowded : IsText (crowded.take crowded.length)
    (List.replicate (2 ^ 32 + 1) ([], .number [ch '0'])) := by
  rw [List.take_length]
  exact ⟨[], _, fun _ h => absurd h List.not_mem_nil, .members (isMembers_membersText _), rfl⟩

/-- An object of `2 ^ 32 + 1` members loses one. -/
theorem decode_crowded : ¬ DecodesGrammar (ch '{' :: (membersText (2 ^ 32) ++ [ch '}'])) := by
  change ¬ DecodesGrammar crowded
  intro h
  obtain ⟨node, hd, hs⟩ := h.tree _ _ (Nat.le_refl _) isText_crowded
  rw [dotjsonDecode_text (Nat.le_refl _) isText_crowded] at hd
  cases hd
  have hw := ((build_same_iff _).1 hs).1
  rw [List.length_replicate] at hw
  omega

end Misc.Dotjson
