import Mathlib.Data.List.Nodup
import Misc.Dotjson.RoundTrip

namespace Misc.Dotjson
set_option autoImplicit true

/-- A node or an entry of a tree, with the slots and items that lead to it from the root. -/
inductive Place
  | node (path : List Nat)
  | entry (path : List Nat)
  deriving DecidableEq, Repr

mutual

/-- What `dotjson_destroy` frees, in order. -/
def dotjsonDestroy (path : List Nat) : Node → List Place
  | .object ⟨_, len, es⟩ => destroySlots path 0 len es ++ [.node path]
  | .array ⟨_, len, xs⟩ => destroyItems path 0 len xs ++ [.node path]
  | .null | .bool _ | .number _ | .string _ _ => [.node path]

/-- `for (i = 0; i < len; i++)` over the slots, with the turns that are left. -/
def destroySlots (path : List Nat) (i : Nat) : Nat → List (Option (Entry Node)) → List Place
  | 0, _ | _, [] => []
  | n + 1, none :: es => destroySlots path (i + 1) n es
  | n + 1, some ⟨_, val⟩ :: es =>
    dotjsonDestroy (path ++ [i]) val ++ .entry (path ++ [i]) :: destroySlots path (i + 1) n es

/-- The same loop over the items. -/
def destroyItems (path : List Nat) (i : Nat) : Nat → List Node → List Place
  | 0, _ | _, [] => []
  | n + 1, x :: xs => dotjsonDestroy (path ++ [i]) x ++ destroyItems path (i + 1) n xs

end

mutual

def Node.places (path : List Nat) : Node → List Place
  | .object ⟨_, _, es⟩ => slotPlaces path 0 es ++ [.node path]
  | .array ⟨_, _, xs⟩ => itemPlaces path 0 xs ++ [.node path]
  | .null | .bool _ | .number _ | .string _ _ => [.node path]

def slotPlaces (path : List Nat) (i : Nat) : List (Option (Entry Node)) → List Place
  | [] => []
  | none :: es => slotPlaces path (i + 1) es
  | some ⟨_, val⟩ :: es =>
    val.places (path ++ [i]) ++ .entry (path ++ [i]) :: slotPlaces path (i + 1) es

def itemPlaces (path : List Nat) (i : Nat) : List Node → List Place
  | [] => []
  | x :: xs => x.places (path ++ [i]) ++ itemPlaces path (i + 1) xs

end

mutual

/-- In each object of the tree the taken slots come before its `len`. -/
def Node.Packed : Node → Prop
  | .object ⟨_, len, es⟩ => (∀ e ∈ es.drop len, e = none) ∧ SlotsPacked es
  | .array ⟨_, _, xs⟩ => ItemsPacked xs
  | .null | .bool _ | .number _ | .string _ _ => True

def SlotsPacked : List (Option (Entry Node)) → Prop
  | [] => True
  | none :: es => SlotsPacked es
  | some ⟨_, val⟩ :: es => val.Packed ∧ SlotsPacked es

def ItemsPacked : List Node → Prop
  | [] => True
  | x :: xs => x.Packed ∧ ItemsPacked xs

end

mutual

/-- Each array of the tree has as many items as it counts. -/
def Node.Counted : Node → Prop
  | .object ⟨_, _, es⟩ => SlotsCounted es
  | .array ⟨_, len, xs⟩ => len = xs.length ∧ ItemsCounted xs
  | .null | .bool _ | .number _ | .string _ _ => True

def SlotsCounted : List (Option (Entry Node)) → Prop
  | [] => True
  | none :: es => SlotsCounted es
  | some ⟨_, val⟩ :: es => val.Counted ∧ SlotsCounted es

def ItemsCounted : List Node → Prop
  | [] => True
  | x :: xs => x.Counted ∧ ItemsCounted xs

end

/-- The traversal reaches every node and every entry of the tree exactly once, and nothing
else. -/
def DestroysAll (node : Node) : Prop :=
  (dotjsonDestroy [] node).Nodup ∧ ∀ place, place ∈ dotjsonDestroy [] node ↔
    place ∈ node.places []

/-! ## The places of a tree -/

def Place.path : Place → List Nat
  | .node path | .entry path => path

theorem prefix_unique {p q : List Nat} {i j : Nat} (h : p ++ [i] <+: q) (h' : p ++ [j] <+: q) :
    i = j := by
  have heq := List.prefix_of_prefix_length_le h h' (by simp)
  simpa using heq.eq_of_length (by simp)

theorem Place.below {p : List Nat} {i : Nat} {place : Place}
    (h : place = .node (p ++ [i]) ∨ ∃ k, p ++ [i] ++ [k] <+: place.path) :
    p ++ [i] <+: place.path := by
  rcases h with rfl | ⟨k, hk⟩
  · exact List.prefix_rfl
  · exact (List.prefix_append _ _).trans hk

mutual

theorem Node.places_path (p : List Nat) : ∀ node : Node, ∀ place ∈ node.places p,
    place = .node p ∨ ∃ i, p ++ [i] <+: place.path
  | .object ⟨_, _, es⟩, place, h => by
    rw [Node.places] at h
    rcases List.mem_append.1 h with h | h
    · obtain ⟨i, -, hi⟩ := slotPlaces_path p es 0 place h
      exact .inr ⟨i, hi⟩
    · exact .inl (List.mem_singleton.1 h)
  | .array ⟨_, _, xs⟩, place, h => by
    rw [Node.places] at h
    rcases List.mem_append.1 h with h | h
    · obtain ⟨i, -, hi⟩ := itemPlaces_path p xs 0 place h
      exact .inr ⟨i, hi⟩
    · exact .inl (List.mem_singleton.1 h)
  | .null, _, h | .bool _, _, h | .number _, _, h | .string _ _, _, h =>
    .inl (List.mem_singleton.1 h)

theorem slotPlaces_path (p : List Nat) : ∀ (es : List (Option (Entry Node))) (i : Nat),
    ∀ place ∈ slotPlaces p i es, ∃ j, i ≤ j ∧ p ++ [j] <+: place.path
  | [], _, _, h => absurd h List.not_mem_nil
  | none :: es, i, place, h => by
    obtain ⟨j, hj, hp⟩ := slotPlaces_path p es (i + 1) place h
    exact ⟨j, by omega, hp⟩
  | some ⟨_, val⟩ :: es, i, place, h => by
    rw [slotPlaces] at h
    rcases List.mem_append.1 h with h | h
    · exact ⟨i, Nat.le_refl i, Place.below (val.places_path (p ++ [i]) place h)⟩
    · rcases List.mem_cons.1 h with rfl | h
      · exact ⟨i, Nat.le_refl i, List.prefix_rfl⟩
      · obtain ⟨j, hj, hp⟩ := slotPlaces_path p es (i + 1) place h
        exact ⟨j, by omega, hp⟩

theorem itemPlaces_path (p : List Nat) : ∀ (xs : List Node) (i : Nat),
    ∀ place ∈ itemPlaces p i xs, ∃ j, i ≤ j ∧ p ++ [j] <+: place.path
  | [], _, _, h => absurd h List.not_mem_nil
  | x :: xs, i, place, h => by
    rw [itemPlaces] at h
    rcases List.mem_append.1 h with h | h
    · exact ⟨i, Nat.le_refl i, Place.below (x.places_path (p ++ [i]) place h)⟩
    · obtain ⟨j, hj, hp⟩ := itemPlaces_path p xs (i + 1) place h
      exact ⟨j, by omega, hp⟩

end

theorem Node.places_below (p : List Nat) (i : Nat) (node : Node) {place : Place}
    (h : place ∈ node.places (p ++ [i])) : p ++ [i] <+: place.path :=
  Place.below (node.places_path (p ++ [i]) place h)

theorem not_prefix_self {p : List Nat} {i : Nat} : ¬ p ++ [i] <+: p := by
  intro h
  have hle := h.length_le
  rw [List.length_append, List.length_singleton] at hle
  omega

mutual

theorem Node.places_nodup (p : List Nat) : ∀ node : Node, (node.places p).Nodup
  | .object ⟨_, _, es⟩ => by
    rw [Node.places, List.nodup_append]
    refine ⟨slotPlaces_nodup p es 0, List.nodup_singleton _, ?_⟩
    rintro place h _ hself rfl
    cases List.mem_singleton.1 hself
    obtain ⟨j, -, hj⟩ := slotPlaces_path p es 0 _ h
    exact not_prefix_self hj
  | .array ⟨_, _, xs⟩ => by
    rw [Node.places, List.nodup_append]
    refine ⟨itemPlaces_nodup p xs 0, List.nodup_singleton _, ?_⟩
    rintro place h _ hself rfl
    cases List.mem_singleton.1 hself
    obtain ⟨j, -, hj⟩ := itemPlaces_path p xs 0 _ h
    exact not_prefix_self hj
  | .null | .bool _ | .number _ | .string _ _ => List.nodup_singleton _

theorem slotPlaces_nodup (p : List Nat) : ∀ (es : List (Option (Entry Node))) (i : Nat),
    (slotPlaces p i es).Nodup
  | [], _ => List.nodup_nil
  | none :: es, i => slotPlaces_nodup p es (i + 1)
  | some ⟨_, val⟩ :: es, i => by
    rw [slotPlaces, List.nodup_append, List.nodup_cons]
    refine ⟨val.places_nodup _, ⟨?_, slotPlaces_nodup p es (i + 1)⟩, ?_⟩
    · intro h
      obtain ⟨j, hj, hp⟩ := slotPlaces_path p es (i + 1) _ h
      have heq := prefix_unique hp List.prefix_rfl
      omega
    · rintro place h _ hrest rfl
      rcases List.mem_cons.1 hrest with rfl | hrest
      · rcases val.places_path (p ++ [i]) _ h with hself | ⟨k, hk⟩
        · cases hself
        · exact not_prefix_self hk
      · obtain ⟨j, hj, hp⟩ := slotPlaces_path p es (i + 1) _ hrest
        have heq := prefix_unique hp (val.places_below p i h)
        omega

theorem itemPlaces_nodup (p : List Nat) : ∀ (xs : List Node) (i : Nat), (itemPlaces p i xs).Nodup
  | [], _ => List.nodup_nil
  | x :: xs, i => by
    rw [itemPlaces, List.nodup_append]
    refine ⟨x.places_nodup _, itemPlaces_nodup p xs (i + 1), ?_⟩
    rintro place h _ hrest rfl
    obtain ⟨j, hj, hp⟩ := itemPlaces_path p xs (i + 1) _ hrest
    have heq := prefix_unique hp (x.places_below p i h)
    omega

end

/-! ## The places that are destroyed -/

mutual

/-- Nothing is freed twice or made up. -/
theorem dotjsonDestroy_sublist (p : List Nat) : ∀ node : Node,
    (dotjsonDestroy p node).Sublist (node.places p)
  | .object ⟨_, len, es⟩ => by
    rw [dotjsonDestroy, Node.places]
    exact (destroySlots_sublist p es 0 len).append_right _
  | .array ⟨_, len, xs⟩ => by
    rw [dotjsonDestroy, Node.places]
    exact (destroyItems_sublist p xs 0 len).append_right _
  | .null | .bool _ | .number _ | .string _ _ => .refl _

theorem destroySlots_sublist (p : List Nat) : ∀ (es : List (Option (Entry Node))) (i n : Nat),
    (destroySlots p i n es).Sublist (slotPlaces p i es)
  | _, _, 0 => by
    rw [destroySlots]
    exact List.nil_sublist _
  | [], _, _ + 1 => .slnil
  | none :: es, i, n + 1 => destroySlots_sublist p es (i + 1) n
  | some ⟨_, val⟩ :: es, i, n + 1 => by
    rw [destroySlots, slotPlaces]
    exact (dotjsonDestroy_sublist _ val).append
      ((destroySlots_sublist p es (i + 1) n).cons_cons _)

theorem destroyItems_sublist (p : List Nat) : ∀ (xs : List Node) (i n : Nat),
    (destroyItems p i n xs).Sublist (itemPlaces p i xs)
  | _, _, 0 => by
    rw [destroyItems]
    exact List.nil_sublist _
  | [], _, _ + 1 => .slnil
  | x :: xs, i, n + 1 => by
    rw [destroyItems, itemPlaces]
    exact (dotjsonDestroy_sublist _ x).append (destroyItems_sublist p xs (i + 1) n)

end

theorem append_eq_iff {a a' b b' : List α} (ha : a.Sublist a') (hb : b.Sublist b') :
    a ++ b = a' ++ b' ↔ a = a' ∧ b = b' := by
  constructor
  · intro h
    have hlen := congrArg List.length h
    rw [List.length_append, List.length_append] at hlen
    have hla := ha.length_le
    have hlb := hb.length_le
    exact ⟨ha.eq_of_length (by omega), hb.eq_of_length (by omega)⟩
  · rintro ⟨rfl, rfl⟩
    rfl

theorem slotPlaces_eq_nil (p : List Nat) (i : Nat) (es : List (Option (Entry Node))) :
    slotPlaces p i es = [] ↔ ∀ e ∈ es, e = none := by
  induction es generalizing i with
  | nil => exact iff_of_true rfl fun _ h => absurd h List.not_mem_nil
  | cons x es ih =>
    cases x with
    | none => rw [slotPlaces, ih, List.forall_mem_cons, eq_self, true_and]
    | some e =>
      obtain ⟨key, val⟩ := e
      rw [slotPlaces, List.forall_mem_cons]
      simp

theorem slotsPacked_free {es : List (Option (Entry Node))} (h : ∀ e ∈ es, e = none) :
    SlotsPacked es := by
  induction es with
  | nil => trivial
  | cons x es ih =>
    rw [List.forall_mem_cons] at h
    rw [h.1]
    exact ih h.2

mutual

theorem dotjsonDestroy_eq_iff (p : List Nat) : ∀ node : Node, node.Counted →
    (dotjsonDestroy p node = node.places p ↔ node.Packed)
  | .object ⟨_, len, es⟩, h => by
    rw [dotjsonDestroy, Node.places, List.append_left_inj]
    exact destroySlots_eq_iff p es 0 len h
  | .array ⟨_, len, xs⟩, h => by
    rw [dotjsonDestroy, Node.places, List.append_left_inj]
    exact destroyItems_eq_iff p xs 0 len h.1.ge h.2
  | .null, _ | .bool _, _ | .number _, _ | .string _ _, _ => iff_of_true rfl trivial

theorem destroySlots_eq_iff (p : List Nat) : ∀ (es : List (Option (Entry Node))) (i n : Nat),
    SlotsCounted es → (destroySlots p i n es = slotPlaces p i es ↔
      (∀ e ∈ es.drop n, e = none) ∧ SlotsPacked es)
  | es, i, 0, _ => by
    rw [destroySlots, eq_comm, slotPlaces_eq_nil, List.drop_zero, iff_self_and]
    exact slotsPacked_free
  | [], _, _ + 1, _ => iff_of_true rfl ⟨fun _ h => absurd h List.not_mem_nil, trivial⟩
  | none :: es, i, n + 1, h => destroySlots_eq_iff p es (i + 1) n h
  | some ⟨_, val⟩ :: es, i, n + 1, h => by
    have hrest := destroySlots_eq_iff p es (i + 1) n h.2
    have hval := dotjsonDestroy_eq_iff (p ++ [i]) val h.1
    rw [destroySlots, slotPlaces, append_eq_iff (dotjsonDestroy_sublist _ val)
      ((destroySlots_sublist p es (i + 1) n).cons_cons _), List.cons_inj_right, hval, hrest]
    exact and_left_comm

theorem destroyItems_eq_iff (p : List Nat) : ∀ (xs : List Node) (i n : Nat), xs.length ≤ n →
    ItemsCounted xs → (destroyItems p i n xs = itemPlaces p i xs ↔ ItemsPacked xs)
  | [], _, 0, _, _ | [], _, _ + 1, _, _ => iff_of_true rfl trivial
  | x :: xs, i, n + 1, hn, h => by
    have hrest := destroyItems_eq_iff p xs (i + 1) n (Nat.le_of_succ_le_succ hn) h.2
    have hx := dotjsonDestroy_eq_iff (p ++ [i]) x h.1
    rw [destroyItems, itemPlaces, append_eq_iff (dotjsonDestroy_sublist _ x)
      (destroyItems_sublist p xs (i + 1) n), hx, hrest]
    exact .rfl

end

/-- Everything is destroyed exactly where every object keeps its entries before its `len`. -/
theorem destroysAll_iff {node : Node} (h : node.Counted) : DestroysAll node ↔ node.Packed := by
  have hsub := dotjsonDestroy_sublist [] node
  have hnodup := hsub.nodup (node.places_nodup [])
  rw [← dotjsonDestroy_eq_iff [] node h]
  constructor
  · rintro ⟨-, hall⟩
    exact hsub.eq_of_length
      ((List.perm_ext_iff_of_nodup hnodup (node.places_nodup [])).2 hall).length_eq
  · intro heq
    refine ⟨hnodup, ?_⟩
    intro place
    rw [heq]

/-! ## Trees that are decoded -/

theorem arrayAdd_len {array : Option (Items Node)}
    (h : ∀ a ∈ array, a.len = a.items.length) (x : Node) :
    (arrayAdd array x).len = (arrayAdd array x).items.length := by
  rw [arrayAdd_items, List.length_append, List.length_singleton]
  cases array with
  | none => rfl
  | some a =>
    rw [Option.elim_some, ← h a rfl, arrayAdd]
    dsimp only
    split_ifs
    · rw [arrayGrow]
      split_ifs <;> rfl
    · rfl

theorem buildElements_len {array : Option (Items Node)} (h : ∀ a ∈ array, a.len = a.items.length)
    (ts : List Json) : ∀ a ∈ buildElements array ts, a.len = a.items.length := by
  induction ts generalizing array with
  | nil => exact h
  | cons t ts ih =>
    apply ih
    intro a ha
    cases Option.mem_some_iff.1 ha
    exact arrayAdd_len h t.build

theorem slotsCounted_of {es : List (Option (Entry Node))} (h : ∀ e ∈ filled es, e.val.Counted) :
    SlotsCounted es := by
  induction es with
  | nil => trivial
  | cons x es ih =>
    cases x with
    | none => exact ih h
    | some e =>
      rw [filled, List.forall_mem_cons] at h
      exact ⟨h.1, ih h.2⟩

theorem itemsCounted_of {xs : List Node} (h : ∀ x ∈ xs, x.Counted) : ItemsCounted xs := by
  induction xs with
  | nil => trivial
  | cons x xs ih =>
    rw [List.forall_mem_cons] at h
    exact ⟨h.1, ih h.2⟩

mutual

theorem Json.build_counted : ∀ t : Json, t.build.Counted
  | .null | .bool _ | .number _ | .string _ => trivial
  | .object ms => by
    obtain ⟨o, ho, hall⟩ := build_object ms
    rw [ho]
    apply slotsCounted_of
    intro e he
    obtain ⟨m, hm, rfl⟩ := hall e he
    exact members_counted ms m hm
  | .array ts => by
    have hlen : ∀ a ∈ buildElements none ts, a.len = a.items.length :=
      buildElements_len (fun _ h => by cases h) ts
    obtain ⟨a, ha, hitems⟩ := build_array ts
    have hcount : a.len = a.items.length := by
      rw [Json.build, Node.array.injEq] at ha
      cases hb : buildElements none ts with
      | none =>
        rw [hb] at ha
        rw [← ha]
        rfl
      | some b =>
        rw [hb, Option.getD_some] at ha
        rw [← ha]
        exact hlen b hb
    rw [ha]
    refine ⟨hcount, itemsCounted_of ?_⟩
    intro x hx
    rw [hitems] at hx
    obtain ⟨t, ht, rfl⟩ := List.mem_map.1 hx
    exact elements_counted ts t ht

theorem members_counted : ∀ ms : List (List UInt8 × Json), ∀ m ∈ ms, m.2.build.Counted
  | [], _, h => absurd h List.not_mem_nil
  | (_, t) :: ms, m, h => by
    rcases List.mem_cons.1 h with heq | h
    · rw [heq]
      exact t.build_counted
    · exact members_counted ms m h

theorem elements_counted : ∀ ts : List Json, ∀ t ∈ ts, t.build.Counted
  | [], _, h => absurd h List.not_mem_nil
  | t :: ts, x, h => by
    rcases List.mem_cons.1 h with heq | h
    · rw [heq]
      exact t.build_counted
    · exact elements_counted ts x h

end

/-- The tree of an accepted text is destroyed as a whole exactly if every object of it keeps its
entries in the slots before its `len`. -/
theorem destroys_decoded_iff {s : List UInt8} {n : Nat} {node : Node}
    (h : dotjsonDecode s = (n + 1, some node)) : DestroysAll node ↔ node.Packed := by
  obtain ⟨b, ms, q, -, -, -, hnode⟩ := dotjsonDecode_iff.1 h
  cases hnode
  exact destroysAll_iff (Json.object ms).build_counted

/-- `{"a":0,"b":0,"c":0}`, of which the second member goes to the last of four slots. -/
def lastSlot : List UInt8 :=
  [ch '{', ch '"', ch 'a', ch '"', ch ':', ch '0', ch ',', ch '"', ch 'b', ch '"',
    ch ':', ch '0', ch ',', ch '"', ch 'c', ch '"', ch ':', ch '0', ch '}']

theorem destroys_decoded_iff_lastSlot : ∃ node, dotjsonDecode lastSlot = (19, some node) ∧
    (DestroysAll node ↔ node.Packed) := by
  refine ⟨_, rfl, ?_⟩
  exact @destroys_decoded_iff lastSlot 18 _ rfl

theorem not_destroysAll_lastSlot : ¬ ∀ s n node, dotjsonDecode s = (n + 1, some node) →
    DestroysAll node := by
  intro h
  have hentry := ((h lastSlot 18 _ rfl).2 (.entry [3])).2 (by decide)
  revert hentry
  decide

end Misc.Dotjson
