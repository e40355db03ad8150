import Misc.Dotjson.DecodesGrammar
import Misc.Dotjson.Encode

namespace Misc.Dotjson
set_option autoImplicit true

def PlainName (s : List UInt8) : Prop := ∀ c ∈ s, c ≠ 0 ∧ c ≠ ch '"' ∧ c ≠ ch '\\'

mutual

/-- The names of the tree stand for themselves, and no string has a NUL in it. -/
def Json.Plain : Json → Prop
  | .string s => ∀ c ∈ s, c ≠ 0
  | .object ms => MembersPlain ms
  | .array ts => ElementsPlain ts
  | _ => True

def MembersPlain : List (List UInt8 × Json) → Prop
  | [] => True
  | (s, t) :: ms => PlainName s ∧ t.Plain ∧ MembersPlain ms

def ElementsPlain : List Json → Prop
  | [] => True
  | t :: ts => t.Plain ∧ ElementsPlain ts

end

theorem PlainName.body (h : PlainName s) : StrBody s s := by
  induction s with
  | nil => exact .nil
  | cons c s ih =>
    obtain ⟨h₀, h₁, h₂⟩ := h c List.mem_cons_self
    exact .plain h₀ h₁ h₂ (ih fun d hd => h d (List.mem_cons_of_mem _ hd))

theorem escapeChar_some (h : escapeChar c = some e) : (e, c) ∈ escapes := by
  simp only [escapeChar] at h
  repeat' split at h
  all_goals first
    | cases h
      subst c
      decide
    | cases h

theorem escapeChar_none (h : escapeChar c = none) : c ≠ ch '"' ∧ c ≠ ch '\\' := by
  constructor
  · rintro rfl
    cases h
  · rintro rfl
    cases h

/-- The escapes of the encoder are read back by the decoder. -/
theorem escaped_body (h : ∀ c ∈ s, c ≠ 0) : StrBody (escaped s) s := by
  induction s with
  | nil => exact .nil
  | cons c s ih =>
    have h₀ := h c List.mem_cons_self
    have hs := ih fun d hd => h d (List.mem_cons_of_mem _ hd)
    rw [escaped, if_neg h₀]
    cases hc : escapeChar c with
    | some e => exact .escape (escapeChar_some hc) hs
    | none => exact .plain h₀ (escapeChar_none hc).1 (escapeChar_none hc).2 hs

theorem byte_ne_zero (h : isDigit c = true ∨ isSign c = true) : c ≠ 0 :=
  (isSpace_of_number h).2.2.2.2

theorem Digits.ne_zero (h : Digits d) : ∀ c ∈ d, c ≠ 0 :=
  fun c hc => byte_ne_zero (.inl (h.2 c hc))

theorem SignOpt.ne_zero (h : SignOpt s) : ∀ c ∈ s, c ≠ 0 := by
  intro c hc
  rcases h with rfl | ⟨x, hx, rfl⟩
  · cases hc
  · cases List.mem_singleton.1 hc
    exact byte_ne_zero (.inr hx)

theorem IsNumber.ne_zero (h : IsNumber b) : ∀ c ∈ b, c ≠ 0 := by
  obtain ⟨s, i, f, e, hs, hi, hf, he, rfl⟩ := h
  intro c hc
  rcases List.mem_append.1 hc with hc | hc
  · exact hs.ne_zero c hc
  rcases List.mem_append.1 hc with hc | hc
  · exact hi.ne_zero c hc
  rcases List.mem_append.1 hc with hc | hc
  · rcases hf with rfl | ⟨d, hd, rfl⟩
    · cases hc
    rcases List.mem_cons.1 hc with rfl | hc
    · decide
    · exact hd.ne_zero c hc
  · rcases he with rfl | ⟨x, s, d, hx, hs, hd, rfl⟩
    · cases hc
    rcases List.mem_cons.1 hc with rfl | hc
    · rcases hx with rfl | rfl <;> decide
    rcases List.mem_append.1 hc with hc | hc
    · exact hs.ne_zero c hc
    · exact hd.ne_zero c hc

theorem IsNumber.takeWhile (h : IsNumber b) : b.takeWhile (· != 0) = b := by
  have hb := h.ne_zero
  clear h
  induction b with
  | nil => rfl
  | cons c b ih =>
    have hc : (c != 0) = true := bne_iff_ne.2 (hb c List.mem_cons_self)
    rw [List.takeWhile_cons, if_pos hc, ih fun d hd => hb d (List.mem_cons_of_mem _ hd)]

/-! ## What is written is in the grammar -/

/-- The text of the node is a value whose parse tree is the one seen in the node. -/
structure Node.Written (node : Node) : Prop where
  measured : node.Measured
  value : IsValue node.text node.view

structure Entry.Written (e : Entry Node) : Prop where
  plain : PlainName e.key
  measured : e.key.length = e.keylen
  val : e.val.Written

theorem space_nil : Space [] := fun _ h => absurd h List.not_mem_nil

theorem Entry.Written.member (h : Entry.Written e) :
    IsMember (e.toKey.text ++ e.val.text) e.view := by
  have htake : e.key.take e.keylen = e.key := h.measured ▸ List.take_length
  have hs : IsString (ch '"' :: (e.key ++ [ch '"'])) e.key := ⟨_, h.plain.body, rfl⟩
  have hm := IsMember.mk space_nil hs space_nil (.mk space_nil h.val.value space_nil)
  rw [Key.text, Entry.view, htake]
  simpa using hm

theorem slots_measured (h : ∀ e ∈ filled es, Entry.Written e) : SlotsMeasured es := by
  induction es with
  | nil => trivial
  | cons x es ih =>
    cases x with
    | none => exact ih h
    | some e =>
      have he := h e List.mem_cons_self
      exact ⟨he.measured, he.val.measured, ih fun d hd => h d (List.mem_cons_of_mem _ hd)⟩

theorem slotsText_cons (e : Entry Node) (es : List (Option (Entry Node))) (empty : Bool) :
    slotsText empty (some e :: es) =
      comma empty ++ (e.toKey.text ++ (e.val.text ++ slotsText false es)) := by
  cases e
  rw [slotsText]

theorem slots_text (h : ∀ e ∈ filled es, Entry.Written e) :
    (filled es = [] ∧ ∀ empty, slotsText empty es = []) ∨
      ∃ b, IsMembers b (slotsView es) ∧ ∀ empty, slotsText empty es = comma empty ++ b := by
  induction es with
  | nil => exact .inl ⟨rfl, fun empty => by rw [slotsText]⟩
  | cons x es ih =>
    cases x with
    | none =>
      rcases ih h with ⟨hn, ht⟩ | ⟨b, hb, ht⟩
      · exact .inl ⟨hn, fun empty => by rw [slotsText, ht]⟩
      · exact .inr ⟨b, by rwa [slotsView], fun empty => by rw [slotsText, ht]⟩
    | some e =>
      have he := (h e List.mem_cons_self).member
      right
      rw [slotsView_eq, filled, List.map_cons, ← slotsView_eq]
      rcases ih fun d hd => h d (List.mem_cons_of_mem _ hd) with ⟨hn, ht⟩ | ⟨b, hb, ht⟩
      · refine ⟨_, ?_, fun empty => by rw [slotsText_cons, ht, List.append_nil]⟩
        rw [slotsView_eq, hn]
        exact .one he
      · refine ⟨_, .cons he hb, ?_⟩
        intro empty
        rw [slotsText_cons, ht]
        simp [comma]

theorem object_written (h : ∀ e ∈ o.stored, Entry.Written e) : (Node.object o).Written := by
  obtain ⟨cap, len, es⟩ := o
  refine ⟨slots_measured h, ?_⟩
  rw [Node.text, Node.view]
  rcases slots_text h with ⟨hn, ht⟩ | ⟨b, hb, ht⟩
  · rw [ht, slotsView_eq, hn]
    exact .object (.empty space_nil)
  · rw [ht]
    exact .object (.members hb)

theorem items_text (h : ∀ x ∈ xs, Node.Written x) :
    (xs = [] ∧ ∀ empty, itemsText empty xs = []) ∨
      ∃ b, IsElements b (itemsView xs) ∧ ∀ empty, itemsText empty xs = comma empty ++ b := by
  induction xs with
  | nil => exact .inl ⟨rfl, fun empty => by rw [itemsText]⟩
  | cons x xs ih =>
    have hx : IsElement x.text x.view := by
      have he := IsElement.mk space_nil (h x List.mem_cons_self).value space_nil
      simpa using he
    right
    rcases ih fun d hd => h d (List.mem_cons_of_mem _ hd) with ⟨rfl, ht⟩ | ⟨b, hb, ht⟩
    · exact ⟨_, .one hx, fun empty => by rw [itemsText, ht, List.append_nil]⟩
    · refine ⟨_, .cons hx hb, ?_⟩
      intro empty
      rw [itemsText, ht]
      simp [comma]

theorem items_measured (h : ∀ x ∈ xs, Node.Written x) : ItemsMeasured xs := by
  induction xs with
  | nil => trivial
  | cons x xs ih =>
    exact ⟨(h x List.mem_cons_self).measured, ih fun d hd => h d (List.mem_cons_of_mem _ hd)⟩

theorem array_written (h : ∀ x ∈ a.items, Node.Written x) : (Node.array a).Written := by
  obtain ⟨cap, len, xs⟩ := a
  refine ⟨items_measured h, ?_⟩
  rw [Node.text, Node.view]
  rcases items_text h with ⟨rfl, ht⟩ | ⟨b, hb, ht⟩
  · rw [ht]
    exact .array (.empty space_nil)
  · rw [ht]
    exact .array (.elements hb)

theorem build_object (ms : List (List UInt8 × Json)) :
    ∃ o, (Json.object ms).build = .object o ∧ ∀ e ∈ o.stored, ∃ m ∈ ms, e = entryOf m := by
  rw [Json.build, buildMembers_eq]
  cases ho : addAll none (ms.map entryOf) with
  | none =>
    refine ⟨_, rfl, ?_⟩
    intro e he
    exact absurd he
      (by rw [Option.getD_none, objectGrow, Table.fresh_stored]; exact List.not_mem_nil)
  | some o =>
    refine ⟨o, rfl, ?_⟩
    intro e he
    obtain ⟨m, hm, rfl⟩ := List.mem_map.1 ((addAll_subperm ho).subset he)
    exact ⟨m, hm, rfl⟩

theorem build_array (ts : List Json) :
    ∃ a, (Json.array ts).build = .array a ∧ a.items = ts.map Json.build := by
  have hi := buildElements_items none ts
  rw [Json.build]
  cases ha : buildElements none ts with
  | none =>
    rw [ha] at hi
    exact ⟨_, rfl, hi⟩
  | some a =>
    rw [ha] at hi
    exact ⟨a, rfl, hi⟩

mutual

theorem IsValue.written : IsValue b t → t.Plain → t.build.Written
  | .null, _ => ⟨trivial, .null⟩
  | .false, _ => ⟨trivial, .false⟩
  | .true, _ => ⟨trivial, .true⟩
  | .number h, _ =>
    ⟨trivial, by rw [Json.build, Node.text, Node.view, h.takeWhile]; exact .number h⟩
  | @IsValue.string _ s _, hp => by
    refine ⟨trivial, ?_⟩
    rw [Json.build, Node.text, Node.view, List.take_length]
    exact .string ⟨_, escaped_body hp, rfl⟩
  | .object h, hp => h.written hp
  | .array h, hp => h.written hp

theorem IsObject.written : IsObject b ms → MembersPlain ms → (Json.object ms).build.Written
  | .empty _, _ => by
    obtain ⟨o, ho, he⟩ := build_object []
    rw [ho]
    apply object_written
    intro e h
    obtain ⟨m, hm, _⟩ := he e h
    cases hm
  | @IsObject.members _ ms h, hp => by
    have hw := h.written hp
    obtain ⟨o, ho, he⟩ := build_object ms
    rw [ho]
    apply object_written
    intro e hmem
    obtain ⟨m, hm, rfl⟩ := he e hmem
    exact hw m hm

theorem IsMembers.written : IsMembers b ms → MembersPlain ms → ∀ m ∈ ms, (entryOf m).Written
  | .one h, hp => by
    have hw := h.written hp.1 hp.2.1
    intro m hm
    exact List.mem_singleton.1 hm ▸ hw
  | .cons h hs, hp => by
    have hw := h.written hp.1 hp.2.1
    have hws := hs.written hp.2.2
    intro m hm
    rcases List.mem_cons.1 hm with rfl | hm
    · exact hw
    · exact hws m hm

theorem IsMember.written : IsMember b m → PlainName m.1 → m.2.Plain → (entryOf m).Written
  | .mk _ _ _ h, hn, hp => ⟨hn, rfl, h.written hp⟩

theorem IsArray.written : IsArray b ts → ElementsPlain ts → (Json.array ts).build.Written
  | .empty _, _ => by
    obtain ⟨a, ha, hi⟩ := build_array []
    rw [ha]
    apply array_written
    rw [hi]
    intro x hx
    exact absurd hx List.not_mem_nil
  | @IsArray.elements _ ts h, hp => by
    have hw := h.written hp
    obtain ⟨a, ha, hi⟩ := build_array ts
    rw [ha]
    apply array_written
    rw [hi]
    intro x hx
    obtain ⟨t, ht, rfl⟩ := List.mem_map.1 hx
    exact hw t ht

theorem IsElements.written : IsElements b ts → ElementsPlain ts → ∀ t ∈ ts, t.build.Written
  | .one h, hp => by
    have hw := h.written hp.1
    intro t ht
    exact List.mem_singleton.1 ht ▸ hw
  | .cons h hs, hp => by
    have hw := h.written hp.1
    have hws := hs.written hp.2
    intro t ht
    rcases List.mem_cons.1 ht with rfl | ht
    · exact hw
    · exact hws t ht

theorem IsElement.written : IsElement b t → t.Plain → t.build.Written
  | .mk _ h _, hp => h.written hp

end

/-! ## Objects that have overflowed are not overfull when they are read again -/

theorem membersWithin_iff : MembersWithin n ms ↔ ∀ m ∈ ms, m.2.Within n := by
  induction ms with
  | nil => exact ⟨fun _ m hm => absurd hm List.not_mem_nil, fun _ => trivial⟩
  | cons m ms ih => simp [MembersWithin, ih]

mutual

/-- With at most `2 ^ 33 - 1` members given, the slots keep at most `2 ^ 32`. -/
theorem Json.view_within : ∀ t : Json, t.Within (2 ^ 33 - 1) → t.build.view.Within (2 ^ 32)
  | .null, _ => trivial
  | .bool _, _ => trivial
  | .number _, _ => trivial
  | .string _, _ => trivial
  | .object ms, h => by
    have hms := members_within ms h.2
    rcases view_object ms with ⟨rfl, hv⟩ | ⟨o, ho, hv⟩
    · rw [hv]
      exact ⟨Nat.zero_le _, trivial⟩
    rw [hv]
    refine ⟨?_, ?_⟩
    · rw [List.length_map]
      rcases Nat.lt_or_ge (2 ^ 32) ms.length with hlt | hle
      · exact (addAll_lined (by rwa [List.length_map])
          (by rw [List.length_map]; exact h.1) ho).1.stored_le
      · have hsub := (addAll_subperm ho).length_le
        rw [List.length_map] at hsub
        omega
    · rw [membersWithin_iff]
      intro x hx
      obtain ⟨e, he, rfl⟩ := List.mem_map.1 hx
      obtain ⟨m, hm, rfl⟩ := List.mem_map.1 ((addAll_subperm ho).subset he)
      rw [entryOf_view]
      exact hms m hm
  | .array ts, h => by
    rw [view_array]
    exact elements_within ts h

theorem members_within : ∀ ms : List (List UInt8 × Json), MembersWithin (2 ^ 33 - 1) ms →
    ∀ m ∈ ms, m.2.build.view.Within (2 ^ 32)
  | [], _, _, hm => absurd hm List.not_mem_nil
  | (s, t) :: ms, h, m, hm => by
    have ht := t.view_within h.1
    have hms := members_within ms h.2
    rcases List.mem_cons.1 hm with rfl | hm
    · exact ht
    · exact hms m hm

theorem elements_within : ∀ ts : List Json, ElementsWithin (2 ^ 33 - 1) ts →
    ElementsWithin (2 ^ 32) (ts.map fun t => t.build.view)
  | [], _ => trivial
  | t :: ts, h => ⟨t.view_within h.1, elements_within ts h.2⟩

end

/-- What is decoded, encoded into a large enough buffer and decoded again is an equal tree. -/
def RoundTrips (s : List UInt8) : Prop :=
  ∀ n node, dotjsonDecode s = (n, some node) →
    ∀ len, (dotjsonEncode node true len).1 < len →
      ∃ n' node', n' ≠ 0 ∧ dotjsonDecode ((dotjsonEncode node true len).2.bytes
        (dotjsonEncode node true len).1) = (n', some node') ∧ node'.view.Same node.view

theorem dotjsonEncode_count (h : node.Measured) (hlen : (dotjsonEncode node true len).1 < len) :
    node.text.length < len := by
  have ha := (encodeNode_adds (len - 1) node h).1
  rw [dotjsonEncode, if_pos ⟨rfl, by omega⟩, ha, Nat.zero_add] at hlen
  exact hlen

theorem dotjsonDecode_append (h : IsText b ms) (q : List UInt8) :
    dotjsonDecode (b ++ q) = (b.length, some (Json.object ms).build) := by
  have ht : IsText ((b ++ q).take b.length) ms := by rwa [List.take_left]
  exact dotjsonDecode_text (by simp) ht

/-- An accepted text makes the round trip if its names stand for themselves, its strings have no
NUL in them and its objects have fewer than `2 ^ 33` members. -/
theorem round_trip (ht : IsText b ms) (hp : (Json.object ms).Plain)
    (hw : (Json.object ms).Within (2 ^ 33 - 1)) (q : List UInt8) : RoundTrips (b ++ q) := by
  intro n node hd len hlen
  rw [dotjsonDecode_append ht] at hd
  cases hd
  obtain ⟨u, x, _, hx, _⟩ := ht
  have hgood := hx.written hp
  have hwithin := Json.view_within _ hw
  obtain ⟨hn, hbytes, _⟩ := dotjsonEncode_text hgood.measured
    (dotjsonEncode_count hgood.measured hlen)
  rw [hn, hbytes]
  obtain ⟨o, ho, _⟩ := build_object ms
  have hval := hgood.value
  rw [ho] at hval hwithin ⊢
  obtain ⟨cap, l, es⟩ := o
  rw [Node.view] at hval hwithin ⊢
  cases hval with
  | object hobj =>
    have ht' : IsText (Node.object ⟨cap, l, es⟩).text (slotsView es) :=
      ⟨[], _, space_nil, hobj, rfl⟩
    have hdec := dotjsonDecode_append ht' []
    rw [List.append_nil] at hdec
    exact ⟨_, _, Nat.ne_of_gt ht'.length_pos, hdec, (build_same_iff _).2 hwithin⟩

/-- `{"a":["x\n",-1]} ,`. -/
theorem round_trip_array : RoundTrips ([ch '{', ch '"', ch 'a', ch '"', ch ':', ch '[', ch '"',
    ch 'x', ch '\\', ch 'n', ch '"', ch ',', ch '-', ch '1', ch ']', ch '}'] ++
    [ch ' ', ch ',']) := by
  have hs : IsString [ch '"', ch 'x', ch '\\', ch 'n', ch '"'] [ch 'x', 10] :=
    ⟨_, .plain (by decide) (by decide) (by decide) (.escape (by simp [escapes]) .nil), rfl⟩
  have hn : IsNumber [ch '-', ch '1'] :=
    ⟨[ch '-'], [ch '1'], [], [], .inr ⟨_, rfl, rfl⟩,
      ⟨List.cons_ne_nil _ _, by simp [isDigit]⟩, .inl rfl, .inl rfl, rfl⟩
  have hk : IsString [ch '"', ch 'a', ch '"'] [ch 'a'] :=
    ⟨_, .plain (by decide) (by decide) (by decide) .nil, rfl⟩
  have ha :
      IsArray [ch '[', ch '"', ch 'x', ch '\\', ch 'n', ch '"', ch ',', ch '-', ch '1', ch ']']
      [.string [ch 'x', 10], .number [ch '-', ch '1']] :=
    .elements (.cons (.mk space_nil (.string hs) space_nil)
      (.one (.mk space_nil (.number hn) space_nil)))
  have hm : IsObject [ch '{', ch '"', ch 'a', ch '"', ch ':', ch '[', ch '"', ch 'x', ch '\\',
      ch 'n', ch '"', ch ',', ch '-', ch '1', ch ']', ch '}']
      [([ch 'a'], .array [.string [ch 'x', 10], .number [ch '-', ch '1']])] :=
    .members (.one (.mk space_nil hk space_nil (.mk space_nil (.array ha) space_nil)))
  refine round_trip ⟨[], _, space_nil, hm, rfl⟩ ?_ ?_ _
  · exact ⟨by simp [PlainName], ⟨by simp [Json.Plain], trivial, trivial⟩, trivial⟩
  · exact ⟨by decide, ⟨trivial, trivial, trivial⟩, trivial⟩

/-- `{"\"":0}` is written with a bare quote for a name. -/
theorem round_trip_quote : ¬ RoundTrips
    [ch '{', ch '"', ch '\\', ch '"', ch '"', ch ':', ch '0', ch '}'] := by
  intro h
  obtain ⟨n, node, hn, hd, _⟩ := h 8 _ rfl 9 (by decide)
  exact hn ((congrArg Prod.fst hd).symm.trans rfl)

end Misc.Dotjson
