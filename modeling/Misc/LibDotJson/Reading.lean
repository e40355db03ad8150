import Misc.LibDotJson.Loop

namespace Misc.LibDotJson
set_option autoImplicit true

variable {F : Type}

/-! What the relations derive, the parser does. -/

theorem IsWord.cons (h : IsWord (l :: ls) b) :
    ∃ c w, b = c :: w ∧ toUpper c = l ∧ IsWord ls w := by
  cases b with
  | nil => cases h
  | cons c w =>
    obtain ⟨hc, hw⟩ := List.cons_eq_cons.1 h
    exact ⟨c, w, rfl, hc, hw⟩

theorem parseWord_word (h : IsWord ls w) (x : JNode F) (r : Str) :
    parseWord ls x (w ++ r) = .ok ((w.length + 1 : Nat), some x) := by
  rw [parseWord, letters_word h]
  subst h
  rw [List.length_map]
  rfl

theorem containerResult_closed (c d : UInt16) (u r : Str) (frame : Frame F) :
    containerResult (c :: (u ++ d :: r)) (some (d :: r, frame)) =
      ((((u ++ [d]).length + 1 : Nat) : Int), some frame.node) := by
  simp only [containerResult, List.length_cons, List.length_append,
    List.length_nil, Prod.mk.injEq, and_true]
  omega

section

variable [Single F]

theorem IsString.parse (h : IsString b s) (r : Str) :
    ∃ c t, b = c :: t ∧ parseNode (F := F) (b ++ r) = .ok (b.length, some (.string s)) := by
  obtain ⟨t, ht, rfl⟩ := h
  refine ⟨_, _, rfl, ?_⟩
  have hloop := ht.loop [] r
  rw [quoted, List.cons_append, List.append_assoc, List.singleton_append, parseNode_string,
    parseString, if_neg (not_not.2 rfl), hloop, List.nil_append]
  simp only [List.length_cons, List.length_append, List.length_nil,
    Except.ok.injEq, Prod.mk.injEq, and_true]
  omega

mutual

theorem Reads.parse {x : JNode F} : Reads s x r →
    ∃ c w, s = c :: (w ++ r) ∧ parseNode s = .ok ((w.length + 1 : Nat), some x)
  | .null hw => by
    obtain ⟨c, w, rfl, hc, hw⟩ := hw.cons
    exact ⟨c, w, rfl, by rw [List.cons_append, parseNode_null hc, parseWord_word hw]⟩
  | .false hw => by
    obtain ⟨c, w, rfl, hc, hw⟩ := hw.cons
    exact ⟨c, w, rfl, by rw [List.cons_append, parseNode_false hc, parseWord_word hw]⟩
  | .true hw => by
    obtain ⟨c, w, rfl, hc, hw⟩ := hw.cons
    exact ⟨c, w, rfl, by rw [List.cons_append, parseNode_true hc, parseWord_word hw]⟩
  | .number (c := c) hc hparse => by
    obtain ⟨w, r, rfl, hn, _, _⟩ := parseNumber_some hc hparse
    refine ⟨c, w, ?_, ?_⟩
    · rw [hn, Int.toNat_natCast, ← List.cons_append, List.drop_left]
      rfl
    · rw [parseNode_number hc, hparse, hn]
      rfl
  | .string hb => by
    obtain ⟨c, t, rfl, hparse⟩ := hb.parse (F := F) r
    exact ⟨c, t, rfl, hparse⟩
  | @Reads.array _ _ _ frame r hin => by
    obtain ⟨u, hu, hloop⟩ := hin.loop
    refine ⟨ch '[', u ++ [frame.closer], ?_, ?_⟩
    · rw [hu, List.append_assoc]
      rfl
    · rw [parseNode_array, hloop, hu, Except.map, containerResult_closed]
  | @Reads.object _ _ _ frame r hin => by
    obtain ⟨u, hu, hloop⟩ := hin.loop
    refine ⟨ch '{', u ++ [frame.closer], ?_, ?_⟩
    · rw [hu, List.append_assoc]
      rfl
    · rw [parseNode_object, hloop, hu, Except.map, containerResult_closed]

theorem ReadsIn.loop {frame frame' : Frame F} : ReadsIn frame step t frame' r →
    ∃ u, t = u ++ frame'.closer :: r ∧
      containerLoop frame step t = .ok (some (frame'.closer :: r, frame'))
  | .close hstep => by
    refine ⟨[], rfl, ?_⟩
    have hcloser := parseNode_nothing (F := F) frame.starts_nothing.1 r
    have hne : ∀ s ∈ frame.separators, s.1 ≠ frame.closer := fun s hs =>
      (frame.starts_nothing.2 s hs).2
    rw [loop_other hne, turn_nothing hcloser, if_pos ⟨rfl, hstep⟩]
  | .separator hmem hin => by
    obtain ⟨u, rfl, hloop⟩ := hin.loop
    refine ⟨_ :: u, rfl, ?_⟩
    rw [loop_separator hmem, if_pos rfl, turn_next hmem (by simp), hloop]
  | .space hc hin => by
    obtain ⟨u, rfl, hloop⟩ := hin.loop
    refine ⟨_ :: u, rfl, ?_⟩
    rw [loop_space hc (by simp), hloop]
  | .value hx haccept hin => by
    obtain ⟨c, w, rfl, hparse⟩ := hx.parse
    obtain ⟨u, rfl, hloop⟩ := hin.loop
    refine ⟨c :: (w ++ u), by rw [List.cons_append, List.append_assoc], ?_⟩
    have hne := not_separator (t := w ++ (u ++ frame'.closer :: r)) (by rw [hparse]; nofun) frame
    rw [loop_other hne, turn_value hparse (Int.natCast_succ_pos _), haccept, Int.toNat_natCast,
      List.drop_succ_cons, List.drop_left]
    exact hloop

end

end

end Misc.LibDotJson
