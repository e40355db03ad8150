import Misc.LibDotJson.Reading

namespace Misc.LibDotJson
set_option autoImplicit true

variable {F : Type} [Single F]

theorem Refuses.cons (h : Refuses F s) : ∃ c t, s = c :: t := by
  cases h <;> exact ⟨_, _, rfl⟩

mutual

theorem Refuses.parse : Refuses F s → parseNode (F := F) s = .ok (-1, none)
  | .number hc hparse => (parseNode_number hc _).trans hparse
  | .string hbody => by
    rw [parseNode_string, parseString, if_neg (not_not.2 rfl), hbody.loop]
  | .array hin => by
    rw [parseNode_array, hin.loop]
    rfl
  | .object hin => by
    rw [parseNode_object, hin.loop]
    rfl

theorem RefusesIn.loop {frame : Frame F} : RefusesIn F frame step t →
    containerLoop frame step t = .ok none
  | .nil => by rw [containerLoop]
  | .separator hmem hne => by rw [loop_separator hmem, if_neg hne]
  | .next hmem ht hin => by rw [loop_separator hmem, if_pos rfl, turn_next hmem ht, hin.loop]
  | .space hc ht hin => by rw [loop_space hc ht, hin.loop]
  | .value hx haccept hin => by
    obtain ⟨c, w, rfl, hparse⟩ := hx.parse
    have hne := not_separator (by rw [hparse]; nofun) frame
    rw [loop_other hne, turn_value hparse (Int.natCast_succ_pos _), haccept, Int.toNat_natCast,
      List.drop_succ_cons, List.drop_left]
    exact hin.loop
  | .key hx haccept => by
    obtain ⟨c, w, rfl, hparse⟩ := hx.parse
    have hne := not_separator (by rw [hparse]; nofun) frame
    rw [loop_other hne, turn_value hparse (Int.natCast_succ_pos _), haccept]
  | .broken hbroken => by
    have hparse := hbroken.parse
    obtain ⟨c, t, rfl⟩ := hbroken.cons
    have hne := not_separator (by rw [hparse]; nofun) frame
    rw [loop_other hne, turn_broken hparse]
  | .unread hunread hne hclose => by
    rw [loop_other hne, turn_nothing hunread.parse, if_neg]
    intro h
    exact hclose h.1 h.2

end

/-! What the parser does, the relations derive. -/

/-- What `parseNode` has found if it does not throw. -/
def Found (s : Str) : Parsed F → Prop
  | .error _ => True
  | .ok (n, some x) => ∃ c w r, s = c :: (w ++ r) ∧ n = (w.length + 1 : Nat) ∧ Reads s x r
  | .ok (n, none) => (n = -1 ∧ Refuses F s) ∨ (n = 0 ∧ Unread s) ∨
      (0 < n ∧ ∃ c t, s = c :: t ∧ isWhiteSpace c = true)

/-- What the loop has found if it does not throw. -/
def FoundIn (frame : Frame F) (step : Nat) (t : Str) :
    Except Thrown (Option (Str × Frame F)) → Prop
  | .error _ => True
  | .ok none => RefusesIn F frame step t
  | .ok (some (p, frame')) => ∃ u r, t = u ++ frame'.closer :: r ∧ p = frame'.closer :: r ∧
      ReadsIn frame step t frame' r

theorem found_word {x : JNode F} (hw : (toUpper c, ls) ∈ words)
    (hx : ∀ w r, IsWord ls w → Reads (c :: (w ++ r)) x r) (t : Str) :
    Found (c :: t) (parseWord ls x t) := by
  rw [parseWord]
  cases hb : letters ls t with
  | error _ => trivial
  | ok b =>
    have hsound := letters_sound hb
    cases b with
    | false => exact .inr (.inl ⟨rfl, .word hw hsound⟩)
    | true =>
      obtain ⟨w, r, rfl, hls⟩ := hsound
      refine ⟨c, w, r, rfl, ?_, hx w r hls⟩
      rw [← hls, List.length_map]
      rfl

theorem found_string (t : Str) :
    Found (F := F) (ch '"' :: t) (parseString (ch '"' :: t)) := by
  rw [parseString, if_neg (not_not.2 rfl)]
  cases hloop : stringLoop [] t with
  | error _ => trivial
  | ok r =>
    have hsound := stringLoop_sound hloop
    cases r with
    | none => exact .inl ⟨rfl, .string hsound⟩
    | some r =>
      obtain ⟨b, s, q, rfl, hp, hb, hs⟩ := hsound
      rw [List.nil_append] at hs
      refine ⟨ch '"', b ++ [ch '"'], q, ?_, ?_, ?_⟩
      · rw [hp, List.append_assoc]
        rfl
      · rw [hp]
        simp only [List.length_cons, List.length_append, List.length_nil]
        omega
      · have hreads := Reads.string (F := F) (r := q) ⟨b, hb, rfl⟩
        rw [quoted, List.cons_append, List.append_assoc, List.singleton_append] at hreads
        rw [hp, hs]
        exact hreads

theorem found_container {frame : Frame F}
    (h : FoundIn frame 0 t (containerLoop frame 0 t))
    (hreads : ∀ frame' r, ReadsIn frame 0 t frame' r → Reads (c :: t) frame'.node r)
    (hrefuses : RefusesIn F frame 0 t → Refuses F (c :: t)) :
    Found (c :: t) ((containerLoop frame 0 t).map (containerResult (c :: t))) := by
  cases hloop : containerLoop frame 0 t with
  | error _ => trivial
  | ok r =>
    rw [hloop] at h
    cases r with
    | none => exact .inl ⟨rfl, hrefuses h⟩
    | some r =>
      obtain ⟨p, frame'⟩ := r
      obtain ⟨u, r, rfl, rfl, hin⟩ := h
      rw [Except.map, containerResult_closed]
      refine ⟨c, u ++ [frame'.closer], r, ?_, rfl, hreads frame' r hin⟩
      rw [List.append_assoc]
      rfl

theorem found_number (hc : StartsNumber c) (t : Str) :
    Found (F := F) (c :: t) (parseNumber (c :: t)) := by
  cases hparse : parseNumber (F := F) (c :: t) with
  | error _ => trivial
  | ok r =>
    obtain ⟨n, node⟩ := r
    cases node with
    | none =>
      have hn := parseNumber_none hparse
      subst hn
      exact .inl ⟨rfl, .number hc hparse⟩
    | some x =>
      obtain ⟨w, r, rfl, hn, _, _⟩ := parseNumber_some hc hparse
      refine ⟨c, w, r, rfl, hn, ?_⟩
      have hreads := Reads.number hc hparse
      rwa [hn, Int.toNat_natCast, ← List.cons_append, List.drop_left] at hreads

theorem parseNode_found
    (ih : ∀ frame t, t.length < s.length →
      FoundIn (F := F) frame 0 t (containerLoop frame 0 t)) :
    Found (F := F) s (parseNode s) := by
  cases s with
  | nil =>
    rw [parseNode]
    trivial
  | cons c t =>
    have ht := Nat.lt_succ_self t.length
    by_cases hs : c ∈ starters
    · simp only [starters, List.mem_cons, List.not_mem_nil, or_false] at hs
      rcases hs with rfl | rfl | rfl | hs
      · rw [parseNode_object]
        exact found_container (ih _ t ht) (fun _ _ h => .object h) .object
      · rw [parseNode_array]
        exact found_container (ih _ t ht) (fun _ _ h => .array h) .array
      · rw [parseNode_string]
        exact found_string t
      · have hcases : toUpper c = ch 'N' ∨ toUpper c = ch 'F' ∨ toUpper c = ch 'T' := by
          rcases hs with rfl | rfl | rfl | rfl | rfl | rfl <;> decide
        rcases hcases with hc | hc | hc
        · rw [parseNode_null hc]
          refine found_word (by rw [hc]; decide) (fun w r hw => ?_) t
          exact Reads.null (w := c :: w) (congrArg₂ List.cons hc hw)
        · rw [parseNode_false hc]
          refine found_word (by rw [hc]; decide) (fun w r hw => ?_) t
          exact Reads.false (w := c :: w) (congrArg₂ List.cons hc hw)
        · rw [parseNode_true hc]
          refine found_word (by rw [hc]; decide) (fun w r hw => ?_) t
          exact Reads.true (w := c :: w) (congrArg₂ List.cons hc hw)
    · by_cases hspace : isWhiteSpace c = true
      · rw [parseNode_space hspace]
        cases spaces t with
        | error _ => trivial
        | ok n => exact .inr (.inr ⟨Int.natCast_succ_pos n, c, t, rfl, hspace⟩)
      · by_cases hnum : StartsNumber c
        · rw [parseNode_number hnum]
          exact found_number hnum t
        · rw [Bool.not_eq_true] at hspace
          have hnothing : StartsNothing c := ⟨hs, hspace, hnum⟩
          rw [parseNode_nothing hnothing]
          exact .inr (.inl ⟨rfl, .other hnothing⟩)

theorem FoundIn.lift {frame frame' : Frame F} (h : FoundIn frame' next t result) (w : Str)
    (hreads : ∀ g r, ReadsIn frame' next t g r → ReadsIn frame step (w ++ t) g r)
    (hrefuses : RefusesIn F frame' next t → RefusesIn F frame step (w ++ t)) :
    FoundIn frame step (w ++ t) result := by
  match result, h with
  | .error _, _ => trivial
  | .ok none, h => exact hrefuses h
  | .ok (some (p, g)), ⟨u, r, hu, hp, h⟩ =>
    exact ⟨w ++ u, r, by rw [hu, List.append_assoc], hp, hreads g r h⟩

theorem containerLoop_found (t : Str) (frame : Frame F) (step : Nat) :
    FoundIn frame step t (containerLoop frame step t) := by
  induction hn : t.length using Nat.strongRecOn generalizing t frame step with
  | ind n ih =>
    cases t with
    | nil =>
      rw [containerLoop]
      exact .nil
    | cons c t =>
      have iht (r : Str) (hr : r.length ≤ t.length) (frame : Frame F) (step : Nat) :=
        ih r.length (by rw [← hn, List.length_cons]; omega) r frame step rfl
      by_cases hsep : ∃ s ∈ frame.separators, s.1 = c
      · obtain ⟨⟨_, needed, next⟩, hmem, rfl⟩ := hsep
        rw [loop_separator hmem]
        split_ifs with hstep
        · subst hstep
          cases t with
          | nil =>
            rw [turn, parseNode]
            trivial
          | cons d t =>
            have ht : d :: t ≠ [] := List.cons_ne_nil d t
            have hfound := iht (d :: t) (Nat.le_refl _) frame next
            rw [turn_next hmem ht]
            exact hfound.lift [_] (fun _ _ => .separator hmem) (.next hmem ht)
        · exact .separator hmem hstep
      · have hne : ∀ s ∈ frame.separators, s.1 ≠ c := fun s hs he => hsep ⟨s, hs, he⟩
        have hparse := parseNode_found (F := F) (s := c :: t) fun frame r hr =>
          iht r (Nat.le_of_lt_succ hr) frame 0
        rw [loop_other hne]
        cases hp : parseNode (F := F) (c :: t) with
        | error _ =>
          rw [turn, hp]
          trivial
        | ok found =>
          obtain ⟨n, node⟩ := found
          rw [hp] at hparse
          cases node with
          | some x =>
            obtain ⟨c, w, r, hs, rfl, hx⟩ := hparse
            rw [hs] at hp hx ⊢
            rw [turn_value hp (Int.natCast_succ_pos _), Int.toNat_natCast, List.drop_succ_cons,
              List.drop_left]
            cases haccept : frame.accept step x with
            | none => exact .key hx haccept
            | some accepted =>
              have hr : r.length ≤ t.length := by
                rw [(List.cons_eq_cons.1 hs).2, List.length_append]
                omega
              exact (iht r hr _ _).lift (c :: w) (fun _ _ =>
                .value hx haccept) (.value hx haccept)
          | none =>
            rcases hparse with ⟨rfl, h⟩ | ⟨rfl, h⟩ | ⟨_, c, t, hs, hspace⟩
            · rw [turn_broken hp]
              exact .broken h
            · rw [turn_nothing hp]
              split_ifs with hclose
              · obtain ⟨rfl, hstep⟩ := hclose
                exact ⟨[], t, rfl, rfl, .close hstep⟩
              · exact .unread h hne fun hc hstep => hclose ⟨hc, hstep⟩
            · cases hs
              have ht : t ≠ [] := by
                rintro rfl
                rw [parseNode_space hspace] at hp
                cases hp
              rw [← loop_other hne, loop_space hspace ht]
              exact (iht t (Nat.le_refl _) _ _).lift [c] (fun _ _ => .space hspace)
                (.space hspace ht)

end Misc.LibDotJson
