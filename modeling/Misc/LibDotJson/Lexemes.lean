import Misc.LibDotJson.Grammar

namespace Misc.LibDotJson
set_option autoImplicit true

/-! ## Characters -/

/-- Only the members of the list are tried, not all characters. -/
theorem forall_mem_of_all {P : α → Prop} [DecidablePred P] {l : List α}
    (h : (l.all fun a => decide (P a)) = true) : ∀ a ∈ l, P a := by
  simpa using h

theorem inRanges_iff : inRanges ranges c = true ↔
      ∃ r ∈ ranges, r.1 ≤ c.toNat ∧ c.toNat ≤ r.2 := by
  simp [inRanges]

theorem isWhiteSpace_of_digit (h : isDigit c = true) : isWhiteSpace c = false := by
  have hapart : ∀ d ∈ decimalDigits, ∀ w ∈ whiteSpaces, d.2 < w.1 ∨ w.2 < d.1 := by
    decide
  obtain ⟨d, hd, hlow, hhigh⟩ := inRanges_iff.1 h
  rw [← Bool.not_eq_true]
  intro hc
  obtain ⟨w, hw, hlow', hhigh'⟩ := inRanges_iff.1 hc
  rcases hapart d hd w hw with h | h <;> omega

theorem StartsNumber.not_space (h : StartsNumber c) : isWhiteSpace c = false := by
  rcases h with h | rfl
  · exact isWhiteSpace_of_digit h
  · decide

/-- `Char.ToUpper` makes a capital of ASCII only of it and of its small letter. -/
theorem toUpper_eq (hl : 65 ≤ l.toNat) (hl' : l.toNat ≤ 90) :
    toUpper c = l ↔ c = l ∨ c = l + 32 := by
  have hplus : (l + 32).toNat = l.toNat + 32 := by
    rw [UInt16.toNat_add]
    exact Nat.mod_eq_of_lt (by simp; omega)
  rw [toUpper]
  split_ifs with h
  · have hminus : (c - 32).toNat = c.toNat - 32 := UInt16.toNat_sub_of_le c 32 (by
      rw [UInt16.le_iff_toNat_le]
      simp; omega)
    rw [← UInt16.toNat_inj, ← UInt16.toNat_inj, ← UInt16.toNat_inj, hplus, hminus]
    omega
  · rw [← UInt16.toNat_inj, ← UInt16.toNat_inj, hplus]
    omega

/-! ## Words -/

theorem letters_word (h : IsWord ls w) (r : Str) : letters ls (w ++ r) = .ok true := by
  subst h
  induction w with
  | nil => rfl
  | cons c w ih =>
    rw [List.map_cons, List.cons_append, letters, if_pos rfl]
    exact ih

theorem letters_misspelt (h : Misspelt ls t) : letters ls t = .ok false := by
  induction h with
  | here hc => rw [letters, if_neg hc]
  | there hc _ ih => rw [letters, if_pos hc, ih]

theorem letters_sound (h : letters ls t = .ok b) :
    if b then ∃ w r, t = w ++ r ∧ IsWord ls w else Misspelt ls t := by
  induction ls generalizing t with
  | nil =>
    cases h
    exact ⟨[], t, rfl, rfl⟩
  | cons l ls ih =>
    cases t with
    | nil => cases h
    | cons c t =>
      rw [letters] at h
      split_ifs at h with hc
      · have ht := ih h
        cases b with
        | false => exact .there hc ht
        | true =>
          obtain ⟨w, r, rfl, hw⟩ := ht
          exact ⟨c :: w, r, rfl, congrArg₂ List.cons hc hw⟩
      · cases h
        exact .here hc

/-! ## Strings -/

theorem hexValue_of_digit (h : ch '0' ≤ c ∧ c ≤ ch '9') :
    hexValue c = some (c.toNat &&& 0xf) := by
  obtain ⟨h₁, h₂⟩ := h
  rw [UInt16.le_iff_toNat_le, show (ch '0').toNat = 48 from rfl] at h₁
  rw [UInt16.le_iff_toNat_le, show (ch '9').toNat = 57 from rfl] at h₂
  rw [hexValue, if_pos ⟨h₁, h₂⟩, show 0xf = 2 ^ 4 - 1 from rfl, Nat.and_two_pow_sub_one_eq_mod]
  congr 1
  omega

theorem hexValue_of_letter (h : (ch 'A' ≤ c ∧ c ≤ ch 'F') ∨ (ch 'a' ≤ c ∧ c ≤ ch 'f')) :
    hexValue c = some ((c.toNat &&& 0xf) + 9) := by
  rw [hexValue, show 0xf = 2 ^ 4 - 1 from rfl, Nat.and_two_pow_sub_one_eq_mod]
  simp only [UInt16.le_iff_toNat_le, show (ch 'A').toNat = 65 from rfl,
    show (ch 'F').toNat = 70 from rfl, show (ch 'a').toNat = 97 from rfl,
    show (ch 'f').toNat = 102 from rfl] at h
  rcases h with h | h
  · rw [if_neg (by omega), if_pos h]
    congr 1
    omega
  · rw [if_neg (by omega), if_neg (by omega), if_pos h]
    congr 1
    omega

theorem hexValue_none (h₁ : ¬ (ch '0' ≤ c ∧ c ≤ ch '9'))
    (h₂ : ¬ ((ch 'A' ≤ c ∧ c ≤ ch 'F') ∨ (ch 'a' ≤ c ∧ c ≤ ch 'f'))) : hexValue c = none := by
  simp only [UInt16.le_iff_toNat_le, show (ch 'A').toNat = 65 from rfl,
    show (ch 'F').toNat = 70 from rfl, show (ch 'a').toNat = 97 from rfl,
    show (ch 'f').toNat = 102 from rfl, show (ch '0').toNat = 48 from rfl,
    show (ch '9').toNat = 57 from rfl] at h₁ h₂
  rw [hexValue, if_neg h₁, if_neg (by omega), if_neg (by omega)]

theorem hexValue_lt (h : hexValue c = some x) : x < 16 := by
  rw [hexValue] at h
  split_ifs at h <;> cases h <;> omega

theorem unicodeLoop_cons (i u length : Nat) (c : UInt16) (t : Str) :
    unicodeLoop (i + 1) u length (c :: t) = match hexValue c with
      | some x => unicodeLoop i (u * 16 + x) (length + 1) t
      | none => .ok (u <<< 4, 0) := by
  have hshift (x : Nat) (hx : x < 16) : u <<< 4 ||| x = u * 16 + x := by
    rw [← Nat.shiftLeft_add_eq_or_of_lt (i := 4) hx, Nat.shiftLeft_eq]
  rw [unicodeLoop]
  split_ifs with h₁ h₂
  · have hx := hexValue_of_digit h₁
    rw [hx, hshift _ (hexValue_lt hx)]
  · have hx := hexValue_of_letter h₂
    rw [hx, hshift _ (hexValue_lt hx)]
  · rw [hexValue_none h₁ h₂]

theorem unicodeLoop_hex (h : hexValue c = some x) (i u length : Nat) (t : Str) :
    unicodeLoop (i + 1) u length (c :: t) = unicodeLoop i (u * 16 + x) (length + 1) t := by
  rw [unicodeLoop_cons, h]

/-- What the `switch` on an escape finds. -/
inductive Escape : Str → UInt16 → Nat → Prop
  | char : (e, c) ∈ escapes → Escape (e :: t) c 1
  | unicode : hexValue c₁ = some x₁ → hexValue c₂ = some x₂ → hexValue c₃ = some x₃ →
      hexValue c₄ = some x₄ →
      Escape (ch 'u' :: c₁ :: c₂ :: c₃ :: c₄ :: t) (unit x₁ x₂ x₃ x₄) 5
  | letter : (∀ x ∈ escapes, x.1 ≠ e) → e ≠ ch 'u' → Escape (e :: t) c 0
  | digit : ds.length < 4 → (∀ d ∈ ds, (hexValue d).isSome) → hexValue d = none →
      Escape (ch 'u' :: (ds ++ d :: t)) c 0

theorem parseEscape_char (h : (e, c) ∈ escapes) (t : Str) :
    parseEscape (e :: t) = .ok (c, 1) := by
  have hall : ∀ x ∈ escapes, parseEscape (x.1 :: t) = .ok (x.2, 1) := by
    simp only [escapes, List.forall_mem_cons]
    exact ⟨rfl, rfl, rfl, rfl, rfl, rfl, rfl, rfl, fun _ h => absurd h (List.not_mem_nil)⟩
  exact hall _ h

theorem parseEscape_u (t : Str) : parseEscape (ch 'u' :: t) = match unicodeLoop 4 0 1 t with
    | .error e => .error e
    | .ok (u, length) => .ok (UInt16.ofNat u, length) :=
  rfl

theorem parseEscape_letter (h : ∀ x ∈ escapes, x.1 ≠ e) (hu : e ≠ ch 'u') (t : Str) :
    parseEscape (e :: t) = .ok (0, 0) := by
  simp only [escapes, List.forall_mem_cons] at h
  obtain ⟨h₁, h₂, h₃, h₄, h₅, h₆, h₇, h₈, -⟩ := h
  rw [parseEscape, if_neg h₁.symm, if_neg h₂.symm, if_neg h₃.symm,
    if_neg h₄.symm, if_neg h₅.symm, if_neg h₆.symm, if_neg h₇.symm, if_neg h₈.symm, if_neg hu]

theorem unicodeLoop_digit (i u length : Nat) (hds : ds.length < i)
    (h : ∀ d ∈ ds, (hexValue d).isSome) (hd : hexValue d = none) (t : Str) :
    ∃ v, unicodeLoop i u length (ds ++ d :: t) = .ok (v, 0) := by
  induction ds generalizing i u length with
  | nil =>
    cases i with
    | zero => exact absurd hds (Nat.not_lt_zero _)
    | succ i =>
      refine ⟨u <<< 4, ?_⟩
      rw [List.nil_append, unicodeLoop_cons, hd]
  | cons c ds ih =>
    cases i with
    | zero => exact absurd hds (Nat.not_lt_zero _)
    | succ i =>
      obtain ⟨x, hx⟩ := Option.isSome_iff_exists.1 (h c List.mem_cons_self)
      rw [List.cons_append, unicodeLoop_hex hx]
      exact ih i _ _ (Nat.lt_of_succ_lt_succ hds) fun d hd => h d (List.mem_cons_of_mem _ hd)

theorem Escape.parse (h : Escape t c length) : ∃ c', parseEscape t = .ok (c', length) ∧
    (length ≠ 0 → c' = c) := by
  cases h with
  | char h => exact ⟨c, parseEscape_char h _, fun _ => rfl⟩
  | unicode h₁ h₂ h₃ h₄ =>
    refine ⟨_, ?_, fun _ => rfl⟩
    rw [parseEscape_u, unicodeLoop_hex h₁, unicodeLoop_hex h₂, unicodeLoop_hex h₃,
      unicodeLoop_hex h₄, Nat.zero_mul, Nat.zero_add]
    rfl
  | letter h hu => exact ⟨0, parseEscape_letter h hu _, fun h => absurd rfl h⟩
  | digit hds h hd =>
    obtain ⟨v, hv⟩ := unicodeLoop_digit 4 0 1 hds h hd _
    refine ⟨UInt16.ofNat v, ?_, fun h => absurd rfl h⟩
    rw [parseEscape_u, hv]

theorem unicodeLoop_sound (h : unicodeLoop i u length t = .ok (v, n)) :
    (n = 0 ∧ ∃ ds d t', ds.length < i ∧ (∀ d ∈ ds, (hexValue d).isSome) ∧ hexValue d = none ∧
      t = ds ++ d :: t') ∨
    (n = length + i ∧ ∃ (ds : Str) (xs : List Nat) (t' : Str),
      xs.length = i ∧ ds.map hexValue = xs.map some ∧ t = ds ++ t' ∧
      v = xs.foldl (fun u x => u * 16 + x) u) := by
  induction i generalizing u length t with
  | zero =>
    cases h
    exact .inr ⟨rfl, [], [], t, rfl, rfl, rfl, rfl⟩
  | succ i ih =>
    cases t with
    | nil => cases h
    | cons c t =>
      cases hc : hexValue c with
      | none =>
        rw [unicodeLoop_cons, hc] at h
        cases h
        exact .inl ⟨rfl, [], c, t, Nat.succ_pos i, nofun, hc, rfl⟩
      | some x =>
        rw [unicodeLoop_hex hc] at h
        rcases ih h with ⟨rfl, ds, d, t', hds, hhex, hd, rfl⟩ | ⟨rfl, ds,
          xs, t', hxs, hds, rfl, hv⟩
        · refine .inl ⟨rfl, c :: ds, d, t', Nat.succ_lt_succ hds, ?_, hd, rfl⟩
          exact List.forall_mem_cons.2 ⟨by rw [hc]; rfl, hhex⟩
        · refine .inr ⟨by omega, c :: ds, x :: xs, t', congrArg Nat.succ hxs, ?_, rfl, hv⟩
          rw [List.map_cons, List.map_cons, hc, hds]

theorem exists_four {l : List α} (h : l.length = 4) : ∃ a b c d, l = [a, b, c, d] := by
  match l, h with
  | [a, b, c, d], _ => exact ⟨a, b, c, d, rfl⟩

theorem parseEscape_sound (h : parseEscape t = .ok (c, length)) : Escape t c length := by
  cases t with
  | nil => cases h
  | cons e t =>
    by_cases hu : e = ch 'u'
    · subst hu
      rw [parseEscape_u] at h
      cases hloop : unicodeLoop 4 0 1 t with
      | error _ =>
        rw [hloop] at h
        cases h
      | ok r =>
        rw [hloop] at h
        cases h
        rcases unicodeLoop_sound hloop with
          ⟨hn, ds, d, t', hds, hhex, hd, rfl⟩ | ⟨hn, ds, xs, t', hxs, hds, rfl, hv⟩
        · rw [hn]
          exact .digit hds hhex hd
        · have hlen := congrArg List.length hds
          rw [List.length_map, List.length_map, hxs] at hlen
          obtain ⟨x₁, x₂, x₃, x₄, rfl⟩ := exists_four hxs
          obtain ⟨c₁, c₂, c₃, c₄, rfl⟩ := exists_four hlen
          simp only [List.map_cons, List.map_nil, List.cons.injEq, and_true] at hds
          obtain ⟨h₁, h₂, h₃, h₄⟩ := hds
          rw [hn, hv]
          simp only [List.foldl_cons, List.foldl_nil, Nat.zero_mul, Nat.zero_add]
          exact .unicode h₁ h₂ h₃ h₄
    · by_cases hmem : ∃ x ∈ escapes, x.1 = e
      · obtain ⟨⟨e, c'⟩, hmem, rfl⟩ := hmem
        rw [parseEscape_char hmem] at h
        cases h
        exact .char hmem
      · have hall : ∀ x ∈ escapes, x.1 ≠ e := fun x hx he => hmem ⟨x, hx, he⟩
        rw [parseEscape_letter hall hu] at h
        cases h
        exact .letter hall hu

theorem stringLoop_quote (builder t : Str) :
    stringLoop builder (ch '"' :: t) = .ok (some (builder, ch '"' :: t)) := by
  rw [stringLoop, if_pos rfl]

theorem stringLoop_plain (h₁ : c ≠ ch '"') (h₂ : c ≠ ch '\\') (builder t : Str) :
    stringLoop builder (c :: t) = stringLoop (builder ++ [c]) t := by
  rw [stringLoop, if_neg h₁, if_neg h₂]

theorem stringLoop_escape (h : Escape t c length) (builder : Str) :
    stringLoop builder (ch '\\' :: t) =
      if length = 0 then .ok none else stringLoop (builder ++ [c]) (t.drop length) := by
  obtain ⟨c', hparse, hc⟩ := h.parse
  rw [stringLoop, if_neg (by decide), if_pos rfl, hparse]
  dsimp only
  split_ifs with h0
  · rfl
  · rw [hc h0]

theorem StrBody.loop (h : StrBody b s) (builder r : Str) :
    stringLoop builder (b ++ ch '"' :: r) = .ok (some (builder ++ s, ch '"' :: r)) := by
  induction h generalizing builder with
  | nil => rw [List.nil_append, List.append_nil, stringLoop_quote]
  | plain h₁ h₂ _ ih =>
    rw [List.cons_append, stringLoop_plain h₁ h₂, ih, List.append_assoc, List.singleton_append]
  | escape he _ ih =>
    rw [List.cons_append, List.cons_append, stringLoop_escape (.char he), if_neg (by decide),
      List.drop_succ_cons, List.drop_zero, ih, List.append_assoc, List.singleton_append]
  | unicode h₁ h₂ h₃ h₄ _ ih =>
    simp only [List.cons_append]
    rw [stringLoop_escape (.unicode h₁ h₂ h₃ h₄), if_neg (by decide)]
    simp only [List.drop_succ_cons, List.drop_zero]
    rw [ih, List.append_assoc, List.singleton_append]

theorem BadBody.loop (h : BadBody t) (builder : Str) : stringLoop builder t = .ok none := by
  induction h generalizing builder with
  | nil => rw [stringLoop]
  | plain h₁ h₂ _ ih => rw [stringLoop_plain h₁ h₂, ih]
  | escape he _ ih =>
    rw [stringLoop_escape (.char he), if_neg (by decide),
      List.drop_succ_cons, List.drop_zero, ih]
  | unicode h₁ h₂ h₃ h₄ _ ih =>
    rw [stringLoop_escape (.unicode h₁ h₂ h₃ h₄), if_neg (by decide)]
    simp only [List.drop_succ_cons, List.drop_zero]
    rw [ih]
  | letter h hu => rw [stringLoop_escape (c := 0) (.letter h hu), if_pos rfl]
  | digit hds h hc => rw [stringLoop_escape (c := 0) (.digit hds h hc), if_pos rfl]

theorem stringLoop_sound {builder t : Str} {r : Option (Str × Str)}
    (h : stringLoop builder t = .ok r) :
    match r with
    | none => BadBody t
    | some (builder', p) => ∃ b s q, t = b ++ p ∧ p = ch '"' :: q ∧ StrBody b s ∧
        builder' = builder ++ s := by
  induction hn : t.length using Nat.strongRecOn generalizing builder t with
  | ind n ih =>
    cases t with
    | nil =>
      rw [stringLoop] at h
      cases h
      exact .nil
    | cons c t =>
      by_cases h₁ : c = ch '"'
      · subst h₁
        rw [stringLoop_quote] at h
        cases h
        exact ⟨[], [], t, rfl, rfl, .nil, (List.append_nil _).symm⟩
      · by_cases h₂ : c = ch '\\'
        · subst h₂
          cases hparse : parseEscape t with
          | error _ =>
            rw [stringLoop, if_neg h₁, if_pos rfl, hparse] at h
            cases h
          | ok found =>
            obtain ⟨e, length⟩ := found
            have hescape := parseEscape_sound hparse
            rw [stringLoop_escape hescape] at h
            cases hescape with
            | @char e' _ t he =>
              have hr :=
                ih t.length (by rw [← hn, List.length_cons, List.length_cons]; omega) h rfl
              cases r with
              | none => exact .escape he hr
              | some r =>
                obtain ⟨b, s, q, rfl, hp, hb, hs⟩ := hr
                refine ⟨_ :: _ :: b, _ :: s, q, rfl, hp, .escape he hb, ?_⟩
                rw [hs, List.append_assoc, List.singleton_append]
            | @unicode c₁ x₁ c₂ x₂ c₃ x₃ c₄ x₄ t hx₁ hx₂ hx₃ hx₄ =>
              have hr := ih t.length (by rw [← hn]; simp only [List.length_cons]; omega) h rfl
              cases r with
              | none => exact .unicode hx₁ hx₂ hx₃ hx₄ hr
              | some r =>
                obtain ⟨b, s, q, rfl, hp, hb, hs⟩ := hr
                refine ⟨_ :: _ :: _ :: _ :: _ :: _ :: b, _ :: s, q, rfl, hp,
                  .unicode hx₁ hx₂ hx₃ hx₄ hb, ?_⟩
                rw [hs, List.append_assoc, List.singleton_append]
            | letter hall hu =>
              cases h
              exact .letter hall hu
            | digit hds hhex hd =>
              cases h
              exact .digit hds hhex hd
        · rw [stringLoop_plain h₁ h₂] at h
          have hr := ih t.length (by rw [← hn]; exact Nat.lt_succ_self _) h rfl
          cases r with
          | none => exact .plain h₁ h₂ hr
          | some r =>
            obtain ⟨b, s, q, rfl, hp, hb, hs⟩ := hr
            refine ⟨c :: b, c :: s, q, rfl, hp, .plain h₁ h₂ hb, ?_⟩
            rw [hs, List.append_assoc, List.singleton_append]

/-! ## Numbers -/

def NumberEnd : Str → Prop
  | [] => True
  | c :: _ => c ≠ ch '.' ∧ ¬ (c = ch 'E' ∨ c = ch 'e') ∧ isDigit c = false

theorem numberLoop_end (hq : NumberEnd q) (frac exp : Bool) :
    numberLoop frac exp q = .ok (some q) := by
  cases q with
  | nil => rw [numberLoop]
  | cons c q =>
    obtain ⟨h₁, h₂, h₃⟩ := hq
    rw [numberLoop.eq_def]
    dsimp only
    rw [if_neg h₁, if_neg h₂, h₃, if_neg Bool.false_ne_true]

theorem numberLoop_point (exp : Bool) (t : Str) :
    numberLoop false exp (ch '.' :: t) = numberLoop true exp t := by
  rw [numberLoop.eq_def]
  rfl

theorem numberLoop_sign (hc : c ≠ ch '.') (he : c = ch 'E' ∨ c = ch 'e')
    (hs : s = ch '+' ∨ s = ch '-') (frac : Bool) (t : Str) :
    numberLoop frac false (c :: s :: t) = numberLoop frac true t := by
  rw [numberLoop.eq_def]
  dsimp only
  rw [if_neg hc, if_pos he, if_neg Bool.false_ne_true, if_pos hs]

theorem numberLoop_exp (hc : c ≠ ch '.') (he : c = ch 'E' ∨ c = ch 'e')
    (hs : ¬ (s = ch '+' ∨ s = ch '-')) (frac : Bool) (t : Str) :
    numberLoop frac false (c :: s :: t) = numberLoop frac true (s :: t) := by
  rw [numberLoop.eq_def]
  dsimp only
  rw [if_neg hc, if_pos he, if_neg Bool.false_ne_true, if_neg hs]

theorem numberLoop_digit (hc : c ≠ ch '.') (he : ¬ (c = ch 'E' ∨ c = ch 'e'))
    (hd : isDigit c = true) (frac exp : Bool) (t : Str) :
    numberLoop frac exp (c :: t) = numberLoop frac exp t := by
  rw [numberLoop.eq_def]
  dsimp only
  rw [if_neg hc, if_neg he, if_pos hd]

/-- What has been read to its end is read in the same way before a text that cannot continue
it. -/
theorem numberLoop_append (h : numberLoop frac exp w = .ok (some [])) (hq : NumberEnd q) :
    numberLoop frac exp (w ++ q) = .ok (some q) := by
  fun_induction numberLoop frac exp w with
  | case1 => exact numberLoop_end hq _ _
  | case2 | case4 | case5 | case9 => cases h
  | case3 frac exp t hfrac ih =>
    rw [Bool.not_eq_true] at hfrac
    rw [hfrac, List.cons_append, numberLoop_point, ih h]
  | case6 frac exp c hc he hexp s t hs ih =>
    rw [Bool.not_eq_true] at hexp
    rw [hexp, List.cons_append, List.cons_append, numberLoop_sign hc he hs, ih h]
  | case7 frac exp c hc he hexp s t hs ih =>
    rw [Bool.not_eq_true] at hexp
    rw [hexp, List.cons_append, List.cons_append, numberLoop_exp hc he hs]
    exact ih h
  | case8 frac exp c t hc he hd ih => rw [List.cons_append, numberLoop_digit hc he hd, ih h]

theorem numberLoop_suffix (h : numberLoop frac exp t = .ok (some r)) : ∃ w, t = w ++ r := by
  fun_induction numberLoop frac exp t with
  | case1 =>
    cases h
    exact ⟨[], rfl⟩
  | case2 | case4 | case5 => cases h
  | case3 _ _ _ _ ih | case8 _ _ _ _ _ _ _ ih =>
    obtain ⟨w, rfl⟩ := ih h
    exact ⟨_ :: w, rfl⟩
  | case6 _ _ _ _ _ _ _ _ _ ih =>
    obtain ⟨w, rfl⟩ := ih h
    exact ⟨_ :: _ :: w, rfl⟩
  | case7 _ _ _ _ _ _ _ _ _ ih =>
    obtain ⟨w, hw⟩ := ih h
    exact ⟨_ :: w, congrArg _ hw⟩
  | case9 =>
    cases h
    exact ⟨[], rfl⟩

section

variable {F : Type} [Single F]

theorem parseNumber_eq (hloop : numberLoop false false (if c = ch '-' then t else c :: t) =
      .ok (some r)) :
    parseNumber (F := F) (c :: t) =
      match numberNode ((c :: t).take ((c :: t).length - r.length)) with
      | some node => .ok (((c :: t).length - r.length : Nat), some node)
      | none => .ok (-1, none) := by
  rewrite [parseNumber, hloop]
  rfl

theorem StartsNumber.loop (h : StartsNumber c) :
    numberLoop false false (if c = ch '-' then t else c :: t) = numberLoop false false t := by
  split_ifs with hc
  · rfl
  · have hd : isDigit c = true := h.resolve_right hc
    refine numberLoop_digit ?_ ?_ hd false false t
    · rintro rfl
      exact absurd hd (by decide)
    · rintro (rfl | rfl) <;> exact absurd hd (by decide)

theorem parseNumber_some {x : JNode F} (hc : StartsNumber c)
    (h : parseNumber (c :: t) = .ok (n, some x)) :
    ∃ w r, t = w ++ r ∧ n = ((c :: w).length : Nat) ∧ numberLoop false false t = .ok (some r) ∧
      numberNode (c :: w) = some x := by
  cases hloop : numberLoop false false t with
  | error _ =>
    rw [parseNumber, hc.loop, hloop] at h
    cases h
  | ok found =>
    cases found with
    | none =>
      rw [parseNumber, hc.loop, hloop] at h
      cases h
    | some r =>
      rw [parseNumber_eq (hc.loop.trans hloop)] at h
      obtain ⟨w, rfl⟩ := numberLoop_suffix hloop
      have hlen : (c :: (w ++ r)).length - r.length = (c :: w).length := by
        simp only [List.length_cons, List.length_append]
        omega
      rw [hlen, ← List.cons_append, List.take_left] at h
      cases hnode : numberNode (F := F) (c :: w) with
      | none =>
        rw [hnode] at h
        cases h
      | some y =>
        rw [hnode] at h
        cases h
        exact ⟨w, r, rfl, rfl, rfl, hnode⟩

theorem parseNumber_none (h : parseNumber (F := F) (c :: t) = .ok (n, none)) : n = -1 := by
  rw [parseNumber] at h
  split at h
  · cases h
  · cases h
    rfl
  · dsimp only at h
    split at h
    · cases h
    · cases h
      rfl

theorem IsNumber.parse {x : JNode F} (h : IsNumber b x) (hq : NumberEnd q) :
    ∃ c t, b = c :: t ∧ StartsNumber c ∧ parseNumber (b ++ q) = .ok (b.length, some x) := by
  obtain ⟨⟨c, t, rfl, hc⟩, h⟩ := h
  refine ⟨c, t, rfl, hc, ?_⟩
  obtain ⟨w, r, rfl, hn, hloop, hnode⟩ := parseNumber_some hc h
  -- the whole text is the number
  have hr : r = [] := by
    rw [← List.length_eq_zero_iff]
    simp only [List.length_cons, List.length_append] at hn
    omega
  subst hr
  rw [List.append_nil] at hloop ⊢
  rw [List.cons_append, parseNumber_eq (hc.loop.trans (numberLoop_append hloop hq))]
  have hlen : (c :: (w ++ q)).length - q.length = (c :: w).length := by
    simp only [List.length_cons, List.length_append]
    omega
  rw [hlen, ← List.cons_append, List.take_left, hnode]

end

end Misc.LibDotJson
