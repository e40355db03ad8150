import Mathlib
import Misc.Dotjson.Grammar

namespace Misc.Dotjson
set_option autoImplicit true

theorem Space.skip (hu : Space u) (p : Ptr) : ignoreSpace (u ++ p) = ignoreSpace p := by
  induction u with
  | nil => rfl
  | cons c u ih =>
    have hc := hu c List.mem_cons_self
    simp only [ignoreSpace, List.cons_append, List.dropWhile_cons, hc, if_true]
    exact ih fun d hd => hu d (List.mem_cons_of_mem _ hd)

theorem ignoreSpace_cons (hc : isSpace c = false) (p : Ptr) : ignoreSpace (c :: p) = c :: p := by
  simp [ignoreSpace, hc]

theorem ignoreSpace_spec (p : Ptr) : ∃ u, Space u ∧ p = u ++ ignoreSpace p := by
  refine ⟨p.takeWhile isSpace, ?_, List.takeWhile_append_dropWhile.symm⟩
  intro c hc
  exact List.all_eq_true.1 List.all_takeWhile c hc

theorem ignoreSpace_idem (p : Ptr) : ignoreSpace (ignoreSpace p) = ignoreSpace p := by
  obtain ⟨u, hu, h⟩ := ignoreSpace_spec p
  have hs := hu.skip (ignoreSpace p)
  rw [← h] at hs
  exact hs.symm

theorem Space.byte_ne (hu : Space u) (hc : c ≠ 0) (p : Ptr) : byteAt (u ++ c :: p) 0 ≠ 0 := by
  cases u with
  | nil => exact hc
  | cons d u =>
    intro hd
    have h := hu d List.mem_cons_self
    rw [List.cons_append, byteAt_zero] at hd
    rw [hd] at h
    exact absurd h (by decide)

/-! ## Strings -/

theorem place_append (n : Nat) (s t : List UInt8) :
    place n (s ++ t) = place n s ++ place (n + s.length) t := by
  induction s generalizing n with
  | nil => rfl
  | cons c s ih => simp [place, ih, Nat.add_assoc, Nat.add_comm 1]

theorem cell_place (v : UInt8) (n i : Nat) (s : List UInt8) :
    (place n s).foldl (fun v x => if x.1 = i then x.2 else v) v =
      if n ≤ i then s.getD (i - n) v else v := by
  induction s generalizing n v with
  | nil => simp [place]
  | cons c s ih =>
    rw [place, List.foldl_cons, ih]
    rcases Nat.lt_trichotomy i n with h | rfl | h
    · rw [if_neg (by omega), if_neg (by omega : ¬ n = i), if_neg (by omega)]
    · rw [if_neg (by omega), if_pos rfl, if_pos (Nat.le_refl i),
        Nat.sub_self, List.getD_cons_zero]
    · rw [if_pos (by omega), if_neg (by omega : ¬ n = i), if_pos (by omega),
        show i - n = i - (n + 1) + 1 by omega, List.getD_cons_succ]

theorem bytes_place (s : List UInt8) : Writes.bytes (place 0 s) s.length = s := by
  apply List.ext_getElem
  · simp [Writes.bytes]
  · intro i h₁ h₂
    simp [Writes.bytes, Writes.cell, cell_place, h₂]

theorem hexDigit_eq (c : UInt8) : hexDigit c = hexValue c := by
  have h : ∀ i : Fin 256, hexDigit (UInt8.ofNat i) = hexValue (UInt8.ofNat i) := by
    decide +kernel
  have hc := h ⟨c.toNat, c.toNat_lt⟩
  rwa [UInt8.ofNat_toNat] at hc

theorem hexValue_lt (h : hexValue c = some x) : x < 16 := by
  simp only [hexValue] at h
  split at h
  · cases h
    omega
  · split at h
    · cases h
      omega
    · split at h
      · cases h
        omega
      · cases h

theorem shift_or (a : Nat) (hb : b < 16) : a <<< 4 ||| b = a * 16 + b := by
  rw [← Nat.shiftLeft_add_eq_or_of_lt (i := 4) hb, Nat.shiftLeft_eq]

theorem or_add (a i : Nat) (hb : b < 2 ^ i) : 2 ^ i * a ||| b = 2 ^ i * a + b :=
  (Nat.two_pow_add_eq_or_of_lt hb a).symm

theorem and_mod (u : Nat) : u &&& 0x3f = u % 64 := Nat.and_two_pow_sub_one_eq_mod u 6

theorem uc2Utf8_eq (hu : u < 65536) : uc2Utf8 u = utf8 u := by
  have h6 : u >>> 6 = u / 64 := Nat.shiftRight_eq_div_pow u 6
  have h12 : u >>> 12 = u / 4096 := Nat.shiftRight_eq_div_pow u 12
  have hlow (b : Nat) (hb : b < 64) : 0x80 ||| b = 0x80 + b := or_add 2 6 hb
  rw [uc2Utf8, utf8]
  by_cases h₁ : u ≤ 0x7f
  · rw [if_pos h₁, if_pos (show u < 0x80 by omega)]
  · rw [if_neg h₁, if_neg (show ¬ u < 0x80 by omega)]
    by_cases h₂ : u ≤ 0x7ff
    · rw [if_pos h₂, if_pos (show u < 0x800 by omega), and_mod, h6, hlow _ (by omega)]
      rw [show (0xc0 : Nat) ||| u / 64 = 0xc0 + u / 64 from or_add 3 6 (by omega)]
    · rw [if_neg h₂, if_pos (show u ≤ 0xffff by omega), if_neg (show ¬ u < 0x800 by omega),
        and_mod, and_mod, h6, h12, hlow _ (by omega), hlow _ (by omega)]
      rw [show (0xe0 : Nat) ||| u / 4096 = 0xe0 + u / 4096 from or_add 14 4 (by omega)]

theorem hexFour_some : hexFour (c :: p) = some u ↔ ∃ c₁ c₂ c₃ c₄ x₁ x₂ x₃ x₄ q,
    p = c₁ :: c₂ :: c₃ :: c₄ :: q ∧ hexValue c₁ = some x₁ ∧ hexValue c₂ = some x₂ ∧
      hexValue c₃ = some x₃ ∧ hexValue c₄ = some x₄ ∧
      u = ((x₁ * 16 + x₂) * 16 + x₃) * 16 + x₄ := by
  have hval (x₁ x₂ x₃ x₄ : Nat) (h₁ : x₁ < 16) (h₂ : x₂ < 16) (h₃ : x₃ < 16) (h₄ : x₄ < 16) :
      (((0 <<< 4 ||| x₁) <<< 4 ||| x₂) <<< 4 ||| x₃) <<< 4 ||| x₄ =
        ((x₁ * 16 + x₂) * 16 + x₃) * 16 + x₄ := by
    rw [shift_or _ h₁, shift_or _ h₂, shift_or _ h₃, shift_or _ h₄]
    omega
  constructor
  · intro h
    simp only [hexFour, hexDigit_eq, List.foldlM_cons, List.foldlM_nil, Option.bind_eq_bind,
      Option.bind_eq_some_iff, Option.map_eq_some_iff] at h
    obtain ⟨_, ⟨x₁, h₁, rfl⟩, _, ⟨x₂, h₂, rfl⟩, _, ⟨x₃, h₃, rfl⟩, _, ⟨x₄, h₄, rfl⟩, h⟩ := h
    -- a byte behind the end is the NUL, which is no digit
    match p with
    | c₁ :: c₂ :: c₃ :: c₄ :: q =>
      refine ⟨c₁, c₂, c₃, c₄, x₁, x₂, x₃, x₄, q, rfl, h₁, h₂, h₃, h₄, ?_⟩
      rw [← hval _ _ _ _ (hexValue_lt h₁) (hexValue_lt h₂) (hexValue_lt h₃) (hexValue_lt h₄)]
      exact (Option.some.inj h).symm
    | [_, _, _] => exact absurd h₄ (by simp [byteAt, hexValue])
    | [_, _] => exact absurd h₃ (by simp [byteAt, hexValue])
    | [_] => exact absurd h₂ (by simp [byteAt, hexValue])
    | [] => exact absurd h₁ (by simp [byteAt, hexValue])
  · rintro ⟨c₁, c₂, c₃, c₄, x₁, x₂, x₃, x₄, q, rfl, h₁, h₂, h₃, h₄, rfl⟩
    rw [← hval _ _ _ _ (hexValue_lt h₁) (hexValue_lt h₂) (hexValue_lt h₃) (hexValue_lt h₄)]
    simp [hexFour, hexDigit_eq, byteAt, h₁, h₂, h₃, h₄]

theorem unit_lt (h₁ : x₁ < 16) (h₂ : x₂ < 16) (h₃ : x₃ < 16) (h₄ : x₄ < 16) :
    ((x₁ * 16 + x₂) * 16 + x₃) * 16 + x₄ < 65536 := by omega

theorem unescapeChar_some (h : unescapeChar e = some c) : (e, c) ∈ escapes := by
  simp only [unescapeChar] at h
  repeat' split at h
  all_goals first
    | cases h
      subst e
      decide
    | cases h

theorem unescapeChar_of_mem (h : (e, c) ∈ escapes) :
    unescapeChar e = some c ∧ e ≠ ch 'u' := by
  have hall : ∀ x ∈ escapes, unescapeChar x.1 = some x.2 ∧ x.1 ≠ ch 'u' := by
    simp [escapes, unescapeChar]
  exact hall _ h

/-- A string body is read up to the quote behind it, and its bytes are stored if they fit. -/
theorem unescapeLoop_body (h : StrBody b s) (q : Ptr) (hk : b.length < k) :
    ∃ w', unescapeLoop l k (b ++ ch '"' :: q) n w = some (ch '"' :: q, n + s.length, w') ∧
      (n + s.length ≤ l → w' = w ++ place n s) := by
  induction h generalizing k n w with
  | nil =>
    obtain ⟨k, rfl⟩ := Nat.exists_eq_add_of_lt hk
    exact ⟨w, by simp [unescapeLoop], by simp [place]⟩
  | @plain c b s h₀ h₁ h₂ _ ih =>
    obtain ⟨k, rfl⟩ := Nat.exists_eq_add_of_lt hk
    obtain ⟨w', hw, hs⟩ := ih (k := (c :: b).length + k) (n := n + 1) (w := store l n c w)
      (by simp; omega)
    refine ⟨w', ?_, ?_⟩
    · rw [List.cons_append, unescapeLoop, byteAt_zero, if_neg h₁, if_neg h₀, if_neg h₂]
      rw [List.drop_succ_cons, List.drop_zero, hw, List.length_cons]
      congr 3
      omega
    · intro hl
      rw [List.length_cons] at hl
      rw [hs (by omega), store, if_pos (by omega), place, List.append_assoc,
        List.singleton_append]
  | @escape e c b s he _ ih =>
    obtain ⟨k, rfl⟩ := Nat.exists_eq_add_of_lt hk
    obtain ⟨hc, hu⟩ := unescapeChar_of_mem he
    obtain ⟨w', hw, hs⟩ := ih (k := (ch '\\' :: e :: b).length + k) (n := n + 1)
      (w := store l n c w) (by simp; omega)
    refine ⟨w', ?_, ?_⟩
    · rw [List.cons_append, List.cons_append, unescapeLoop, byteAt_zero, if_neg (by decide),
        if_neg (by decide), if_pos rfl]
      simp only [List.drop_succ_cons, List.drop_zero, byteAt_zero]
      rw [if_neg hu, hc]
      simp only
      rw [hw, List.length_cons]
      congr 3
      omega
    · intro hl
      rw [List.length_cons] at hl
      rw [hs (by omega), store, if_pos (by omega), place, List.append_assoc,
        List.singleton_append]
  | @unicode c₁ x₁ c₂ x₂ c₃ x₃ c₄ x₄ b s h₁ h₂ h₃ h₄ _ ih =>
    obtain ⟨k, rfl⟩ := Nat.exists_eq_add_of_lt hk
    have hu := uc2Utf8_eq
      (unit_lt (hexValue_lt h₁) (hexValue_lt h₂) (hexValue_lt h₃) (hexValue_lt h₄))
    obtain ⟨u, hval⟩ : ∃ u, ((x₁ * 16 + x₂) * 16 + x₃) * 16 + x₄ = u := ⟨_, rfl⟩
    rw [hval] at hu ⊢
    obtain ⟨w', hw, hs⟩ := ih (k := (ch '\\' :: ch 'u' :: c₁ :: c₂ :: c₃ :: c₄ :: b).length + k)
      (n := n + (utf8 u).length)
      (w := if n + (utf8 u).length ≤ l then w ++ place n (utf8 u) else w) (by simp; omega)
    refine ⟨w', ?_, ?_⟩
    · have hx : hexFour (ch 'u' :: c₁ :: c₂ :: c₃ :: c₄ :: (b ++ ch '"' :: q)) = some u :=
        hexFour_some.2 ⟨c₁, c₂, c₃, c₄, x₁, x₂, x₃, x₄, _, rfl, h₁, h₂, h₃, h₄, hval.symm⟩
      simp only [List.cons_append]
      rw [unescapeLoop, byteAt_zero, if_neg (by decide), if_neg (by decide), if_pos rfl]
      simp only [List.drop_succ_cons, List.drop_zero, byteAt_zero, if_true]
      rw [hx]
      simp only
      rw [hu, hw, List.length_append]
      congr 3
      omega
    · intro hl
      rw [List.length_append] at hl
      rw [hs (by omega), if_pos (by omega), place_append, List.append_assoc]

theorem unescapeLoop_cases (h : unescapeLoop l (k + 1) p n w = some r) :
    (∃ q, p = ch '"' :: q ∧ r = (p, n, w)) ∨
    (∃ c q, p = c :: q ∧ c ≠ 0 ∧ c ≠ ch '"' ∧ c ≠ ch '\\' ∧
      unescapeLoop l k q (n + 1) (store l n c w) = some r) ∨
    (∃ e c q, p = ch '\\' :: e :: q ∧ unescapeChar e = some c ∧
      unescapeLoop l k q (n + 1) (store l n c w) = some r) ∨
    ∃ q u, p = ch '\\' :: ch 'u' :: q ∧ hexFour (ch 'u' :: q) = some u ∧
      unescapeLoop l k (q.drop 4) (n + (uc2Utf8 u).length)
        (if n + (uc2Utf8 u).length ≤ l then w ++ place n (uc2Utf8 u) else w) = some r := by
  rw [unescapeLoop] at h
  by_cases hq : byteAt p 0 = ch '"'
  · rw [if_pos hq] at h
    obtain ⟨q, rfl⟩ := byteAt_eq hq (by decide)
    exact .inl ⟨q, rfl, (Option.some.inj h).symm⟩
  rw [if_neg hq] at h
  by_cases h0 : byteAt p 0 = 0
  · rw [if_pos h0] at h
    cases h
  rw [if_neg h0] at h
  obtain ⟨c, p, rfl⟩ : ∃ c r, p = c :: r := by
    cases p with
    | nil => exact absurd rfl h0
    | cons c r => exact ⟨c, r, rfl⟩
  rw [byteAt_zero] at hq h0 h
  by_cases hb : c = ch '\\'
  · rw [if_pos hb] at h
    simp only [List.drop_succ_cons, List.drop_zero] at h
    subst hb
    by_cases hu : byteAt p 0 = ch 'u'
    · rw [if_pos hu] at h
      obtain ⟨q, rfl⟩ := byteAt_eq hu (by decide)
      cases hx : hexFour (ch 'u' :: q) with
      | none =>
        rw [hx] at h
        cases h
      | some u =>
        rw [hx] at h
        exact .inr (.inr (.inr ⟨q, u, rfl, hx, h⟩))
    · rw [if_neg hu] at h
      cases hx : unescapeChar (byteAt p 0) with
      | none =>
        rw [hx] at h
        cases h
      | some c =>
        rw [hx] at h
        cases p with
        | nil => cases (show unescapeChar 0 = none by decide).symm.trans hx
        | cons e q => exact .inr (.inr (.inl ⟨e, c, q, rfl, hx, h⟩))
  · rw [if_neg hb] at h
    exact .inr (.inl ⟨c, p, rfl, h0, hq, hb, h⟩)

/-- What is read before the closing quote is a string body. -/
theorem unescapeLoop_sound (h : unescapeLoop l k p n w = some (q, m, w')) :
    ∃ b s r, StrBody b s ∧ q = ch '"' :: r ∧ p = b ++ q := by
  induction k generalizing p n w with
  | zero => cases h
  | succ k ih =>
    obtain ⟨r, rfl, heq⟩ | ⟨c, p, rfl, h0, hq, hb, h⟩ | ⟨e, c, p, rfl, he,
        h⟩ | ⟨p, u, rfl, hx, h⟩ :=
      unescapeLoop_cases h
    · cases heq
      exact ⟨[], [], r, .nil, rfl, rfl⟩
    · obtain ⟨b, s, r, hs, hr, rfl⟩ := ih h
      exact ⟨_, _, r, .plain h0 hq hb hs, hr, rfl⟩
    · obtain ⟨b, s, r, hs, hr, rfl⟩ := ih h
      exact ⟨_, _, r, .escape (unescapeChar_some he) hs, hr, rfl⟩
    · obtain ⟨c₁, c₂, c₃, c₄, x₁, x₂, x₃, x₄, p, heq, h₁, h₂, h₃, h₄, rfl⟩ := hexFour_some.1 hx
      cases heq
      obtain ⟨b, s, r, hs, hr, hp⟩ := ih h
      simp only [List.drop_succ_cons, List.drop_zero] at hp
      refine ⟨_, _, r, .unicode h₁ h₂ h₃ h₄ hs, hr, ?_⟩
      rw [hp]
      rfl

theorem unescapeStr_string (h : IsString b s) (q : Ptr) (l : Nat) :
    ∃ w, unescapeStr (b ++ q) l = some (b.length, s.length, w) ∧
      (s.length ≤ l → w = place 0 s) := by
  obtain ⟨t, ht, rfl⟩ := h
  obtain ⟨w, hw, hs⟩ := unescapeLoop_body (k := (ch '"' :: (t ++ [ch '"']) ++ q).length) (l := l)
    (n := 0) (w := []) ht q (by simp only [List.length_cons, List.length_append]; omega)
  refine ⟨w, ?_, ?_⟩
  · rw [unescapeStr, List.cons_append, byteAt_zero, if_pos rfl]
    simp only [List.drop_succ_cons, List.drop_zero, List.append_assoc, List.singleton_append]
    simp only [List.cons_append, List.append_assoc, List.nil_append] at hw
    rw [hw]
    simp
    omega
  · intro hl
    simpa using hs (by omega)

theorem unescapeStr_sound (h : unescapeStr p l = some r) :
    ∃ b s q, IsString b s ∧ p = b ++ q := by
  rw [unescapeStr] at h
  split at h
  · next hq =>
    obtain ⟨p, rfl⟩ := byteAt_eq hq (by decide)
    obtain ⟨⟨q, m, w⟩, hr, _⟩ := Option.map_eq_some_iff.1 h
    obtain ⟨b, s, r, hs, rfl, hp⟩ := unescapeLoop_sound hr
    refine ⟨_, s, r, ⟨b, hs, rfl⟩, ?_⟩
    rw [List.drop_succ_cons, List.drop_zero] at hp
    simp [hp]
  · cases h

theorem IsString.ne_nil (h : IsString b s) : ∃ t, b = ch '"' :: t := by
  obtain ⟨t, _, rfl⟩ := h
  exact ⟨_, rfl⟩

theorem decodeKey_string (h : IsString b s) (q : Ptr) :
    decodeKey (b ++ q) = some (.of s, q) := by
  obtain ⟨w, hw, _⟩ := unescapeStr_string h q 0
  obtain ⟨w', hw', hs⟩ := unescapeStr_string h q s.length
  simp only [decodeKey, hw, hw', hs (Nat.le_refl _), bytes_place, List.drop_left]
  rfl

theorem decodeKey_sound (h : decodeKey p = some (e, q)) :
    ∃ b s, IsString b s ∧ p = b ++ q ∧ e = .of s := by
  cases hu : unescapeStr p 0 with
  | none => simp [decodeKey, hu] at h
  | some r =>
    obtain ⟨b, s, q', hs, rfl⟩ := unescapeStr_sound hu
    rw [decodeKey_string hs] at h
    cases h
    exact ⟨b, s, hs, rfl, rfl⟩

theorem decodeString_string (h : IsString b s) (q : Ptr) :
    decodeString ignoreSpace (b ++ q) = (b.length, some (.string s.length s)) := by
  obtain ⟨t, rfl⟩ := h.ne_nil
  obtain ⟨w, hw, _⟩ := unescapeStr_string h q 0
  obtain ⟨w', hw', hs⟩ := unescapeStr_string h q s.length
  have hi : ignoreSpace (ch '"' :: t ++ q) = ch '"' :: t ++ q := ignoreSpace_cons (by decide) _
  simp only [decodeString, hi, hw, hw', hs (Nat.le_refl _), bytes_place,
    Nat.sub_self, Nat.zero_add]

theorem decodeString_sound (hq : byteAt p 0 = ch '"') (h : (decodeString ignoreSpace p).1 ≠ 0) :
    ∃ b s q, IsString b s ∧ p = b ++ q := by
  obtain ⟨t, rfl⟩ := byteAt_eq hq (by decide)
  cases hu : unescapeStr (ch '"' :: t) 0 with
  | none =>
    rw [decodeString, ignoreSpace_cons (by decide), hu] at h
    exact absurd rfl h
  | some r => exact unescapeStr_sound hu

/-! ## Numbers -/

/-- Nothing of a number can follow. -/
def NumberEnd (q : Ptr) : Prop :=
  isDigit (byteAt q 0) = false ∧ byteAt q 0 ≠ ch '.' ∧ byteAt q 0 ≠ ch 'E' ∧ byteAt q 0 ≠ ch 'e'

theorem digitState_idem (st : Nat) : digitState (digitState st) = digitState st := by
  simp only [digitState]
  repeat' split
  all_goals omega

theorem numDigits_stop (hq : isDigit (byteAt q 0) = false) : numDigits st q = (st, q) := by
  cases q with
  | nil => rfl
  | cons c q =>
    rw [byteAt_zero] at hq
    simp [numDigits, hq]

theorem numDigits_run (hd : ∀ c ∈ d, isDigit c = true) (hne : d ≠ [])
    (hq : isDigit (byteAt q 0) = false) : numDigits st (d ++ q) = (digitState st, q) := by
  induction d generalizing st with
  | nil => exact absurd rfl hne
  | cons c d ih =>
    rw [List.cons_append, numDigits, if_pos (hd c List.mem_cons_self)]
    cases d with
    | nil => exact numDigits_stop hq
    | cons c' d =>
      rw [ih (fun x hx => hd x (List.mem_cons_of_mem _ hx)) (List.cons_ne_nil _ _),
        digitState_idem]

theorem numDigits_sound (st : Nat) (p : Ptr) : ∃ d, p = d ++ (numDigits st p).2 ∧
    (∀ c ∈ d, isDigit c = true) ∧
    (numDigits st p).1 = if d = [] then st else digitState st := by
  induction p generalizing st with
  | nil => exact ⟨[], rfl, by simp, rfl⟩
  | cons c p ih =>
    rw [numDigits]
    by_cases hc : isDigit c = true
    · rw [if_pos hc]
      obtain ⟨d, hp, hd, hs⟩ := ih (digitState st)
      refine ⟨c :: d, congrArg (c :: ·) hp, ?_, ?_⟩
      · intro x hx
        rcases List.mem_cons.1 hx with rfl | hx
        · exact hc
        · exact hd x hx
      · rw [if_neg (List.cons_ne_nil _ _), hs]
        split
        · rfl
        · exact digitState_idem st
    · rw [if_neg hc]
      exact ⟨[], rfl, by simp, rfl⟩

theorem Digits.head (h : Digits d) : ∃ c t, d = c :: t ∧ isDigit c = true := by
  cases d with
  | nil => exact absurd rfl h.1
  | cons c t => exact ⟨c, t, rfl, h.2 c List.mem_cons_self⟩

theorem isSign_of_isDigit (hc : isDigit c = true) : isSign c = false := by
  have h : ∀ i : Fin 256, isDigit (UInt8.ofNat i) = true → isSign (UInt8.ofNat i) = false := by
    decide +kernel
  have hi := h ⟨c.toNat, c.toNat_lt⟩
  rw [UInt8.ofNat_toNat] at hi
  exact hi hc

theorem numExp_sign (hs : SignOpt s) (hd : Digits d) (q : Ptr) :
    numExp (s ++ (d ++ q)) = d ++ q := by
  obtain ⟨c, t, rfl, hc⟩ := hd.head
  rcases hs with rfl | ⟨x, hx, rfl⟩
  · simp [numExp, isSign_of_isDigit hc]
  · simp [numExp, hx]

theorem numExp_sound (p : Ptr) : ∃ s, SignOpt s ∧ p = s ++ numExp p := by
  rw [numExp]
  split
  · next h =>
    cases p with
    | nil => exact absurd h (by decide)
    | cons c p => exact ⟨[c], .inr ⟨c, h, rfl⟩, rfl⟩
  · exact ⟨[], .inl rfl, rfl⟩

theorem numFrac_exp (he : ExpOpt e) (hq : NumberEnd q) (hst : st = 1 ∨ st = 3) (hd : Digits d)
    (hstart : digitState i = st) :
    ∃ st', st' % 2 = 1 ∧ numFrac (k + 2) i (d ++ (e ++ q)) = (st', q) := by
  rcases he with rfl | ⟨x, s, t, hx, hs, ht, rfl⟩
  · refine ⟨st, by omega, ?_⟩
    rw [List.nil_append, numFrac, numDigits_run hd.2 hd.1 hq.1, hstart]
    simp only
    rw [if_neg fun h => hq.2.1 h.2, if_neg fun h => h.2.elim hq.2.2.1 hq.2.2.2]
  · have hxd : isDigit x = false ∧ x ≠ ch '.' := by
      rcases hx with rfl | rfl <;> decide
    refine ⟨5, rfl, ?_⟩
    rw [numFrac, List.cons_append,
      numDigits_run hd.2 hd.1 (by rw [byteAt_zero]; exact hxd.1), hstart]
    simp only [byteAt_zero, List.drop_succ_cons, List.drop_zero, List.append_assoc]
    rw [if_neg fun h => hxd.2 h.2, if_pos ⟨hst, hx⟩, numExp_sign hs ht, numFrac,
      numDigits_run ht.2 ht.1 hq.1]
    simp [digitState]

theorem numFrac_number (h : IsNumber b) (hq : NumberEnd q) :
    ∃ st, st % 2 = 1 ∧ numFrac 3 0 (numExp (b ++ q)) = (st, q) := by
  obtain ⟨s, i, f, e, hs, hi, hf, he, rfl⟩ := h
  rw [List.append_assoc, List.append_assoc, List.append_assoc, numExp_sign hs hi]
  rcases hf with rfl | ⟨d, hd, rfl⟩
  · exact numFrac_exp he hq (.inl rfl) hi rfl
  · obtain ⟨st, hst, hr⟩ := numFrac_exp (k := 0) (i := 2) he hq (.inr rfl) hd rfl
    refine ⟨st, hst, ?_⟩
    rw [numFrac, List.cons_append, numDigits_run hi.2 hi.1 (by simp [isDigit])]
    simp only [byteAt_zero, List.drop_succ_cons, List.drop_zero]
    rw [if_pos ⟨rfl, trivial⟩]
    exact hr

theorem numDigits_odd (hst : st % 2 = 0) (h : (numDigits st p).1 % 2 = 1) :
    ∃ d, Digits d ∧ p = d ++ (numDigits st p).2 ∧ (numDigits st p).1 = digitState st := by
  obtain ⟨d, hp, hd, hr⟩ := numDigits_sound st p
  by_cases hne : d = []
  · rw [hr, if_pos hne] at h
    omega
  · rw [if_neg hne] at hr
    exact ⟨d, ⟨hne, hd⟩, hp, hr⟩

theorem numDigits_state (st : Nat) (p : Ptr) :
    (numDigits st p).1 = st ∨ (numDigits st p).1 = digitState st := by
  obtain ⟨d, _, _, hr⟩ := numDigits_sound st p
  by_cases hne : d = []
  · exact .inl (by rw [hr, if_pos hne])
  · exact .inr (by rw [hr, if_neg hne])

theorem numFrac_four (k : Nat) (p : Ptr) : numFrac (k + 1) 4 p = numDigits 4 p := by
  have hr : (numDigits 4 p).1 = 4 ∨ (numDigits 4 p).1 = 5 := numDigits_state 4 p
  have h₁ : (numDigits 4 p).1 ≠ 1 := by omega
  have h₃ : (numDigits 4 p).1 ≠ 3 := by omega
  rw [numFrac, if_neg fun h => h₁ h.1, if_neg fun h => h.1.elim h₁ h₃]

theorem numFrac_exp_sound (h : (numFrac (k + 1) 4 (numExp p)).1 % 2 = 1) :
    ∃ s d, SignOpt s ∧ Digits d ∧ p = s ++ (d ++ (numFrac (k + 1) 4 (numExp p)).2) := by
  rw [numFrac_four] at h ⊢
  obtain ⟨s, hs, hp⟩ := numExp_sound p
  obtain ⟨d, hd, hq, _⟩ := numDigits_odd rfl h
  exact ⟨s, d, hs, hd, hq ▸ hp⟩

theorem numFrac_tail_sound (hst : st = 0 ∨ st = 2)
    (hdot : ¬ ((numDigits st p).1 = 1 ∧ byteAt (numDigits st p).2 0 = ch '.'))
    (h : (numFrac (k + 2) st p).1 % 2 = 1) :
    ∃ d e, Digits d ∧ ExpOpt e ∧ p = d ++ (e ++ (numFrac (k + 2) st p).2) := by
  rw [numFrac, if_neg hdot] at h ⊢
  split at h
  · next he =>
    rw [if_pos he]
    obtain ⟨d, hd, hp, _⟩ := numDigits_odd (p := p) (by omega : st % 2 = 0) (by omega)
    obtain ⟨x, q, hx, hq⟩ : ∃ x q, (x = ch 'E' ∨ x = ch 'e') ∧ (numDigits st p).2 = x :: q := by
      rcases he.2 with hx | hx <;> obtain ⟨q, hq⟩ := byteAt_eq hx (by decide)
      · exact ⟨_, q, .inl rfl, hq⟩
      · exact ⟨_, q, .inr rfl, hq⟩
    rw [hq, List.drop_succ_cons, List.drop_zero] at h ⊢
    obtain ⟨s, t, hs, ht, hr⟩ := numFrac_exp_sound h
    refine ⟨d, x :: (s ++ t), hd, .inr ⟨x, s, t, hx, hs, ht, rfl⟩, ?_⟩
    rw [List.cons_append, List.append_assoc, ← hr, ← hq]
    exact hp
  · next he =>
    rw [if_neg he]
    obtain ⟨d, hd, hp, _⟩ := numDigits_odd (by omega : st % 2 = 0) h
    exact ⟨d, [], hd, .inl rfl, hp⟩

theorem numFrac_sound (h : (numFrac 3 0 (numExp p)).1 % 2 = 1) :
    ∃ b, IsNumber b ∧ p = b ++ (numFrac 3 0 (numExp p)).2 := by
  obtain ⟨s, hs, hp⟩ := numExp_sound p
  by_cases hdot : (numDigits 0 (numExp p)).1 = 1 ∧ byteAt (numDigits 0 (numExp p)).2 0 = ch '.'
  · obtain ⟨i, hi, hd, _⟩ := numDigits_odd (p := numExp p) (rfl : 0 % 2 = 0) (by rw [hdot.1])
    obtain ⟨q, hq⟩ := byteAt_eq hdot.2 (by decide)
    rw [numFrac, if_pos hdot, hq, List.drop_succ_cons, List.drop_zero] at h ⊢
    have hnd : ¬ ((numDigits 2 q).1 = 1 ∧ byteAt (numDigits 2 q).2 0 = ch '.') := by
      have hr : (numDigits 2 q).1 = 2 ∨ (numDigits 2 q).1 = 3 := numDigits_state 2 q
      intro h₁
      omega
    obtain ⟨d, e, hd', he, hr⟩ := numFrac_tail_sound (.inr rfl) hnd h
    refine ⟨_, ⟨s, i, ch '.' :: d, e, hs, hi, .inr ⟨d, hd', rfl⟩, he, rfl⟩, ?_⟩
    rw [List.append_assoc, List.append_assoc, List.append_assoc,
      List.cons_append, ← hr, ← hq, ← hd]
    exact hp
  · obtain ⟨i, e, hi, he, hr⟩ := numFrac_tail_sound (.inl rfl) hdot h
    refine ⟨_, ⟨s, i, [], e, hs, hi, .inl rfl, he, rfl⟩, ?_⟩
    rw [List.nil_append, List.append_assoc, List.append_assoc, ← hr]
    exact hp

theorem IsNumber.head (h : IsNumber b) :
    ∃ c t, b = c :: t ∧ (isDigit c = true ∨ isSign c = true) := by
  obtain ⟨s, i, f, e, hs, hi, _, _, rfl⟩ := h
  rcases hs with rfl | ⟨x, hx, rfl⟩
  · obtain ⟨c, t, rfl, hc⟩ := hi.head
    exact ⟨c, _, rfl, .inl hc⟩
  · exact ⟨x, _, rfl, .inr hx⟩

theorem isSpace_of_number (hc : isDigit c = true ∨ isSign c = true) :
    isSpace c = false ∧ c ≠ ch '{' ∧ c ≠ ch '[' ∧ c ≠ ch '"' ∧ c ≠ 0 := by
  have h : ∀ i : Fin 256, isDigit (UInt8.ofNat i) = true ∨ isSign (UInt8.ofNat i) = true →
      isSpace (UInt8.ofNat i) = false ∧ UInt8.ofNat i ≠ ch '{' ∧ UInt8.ofNat i ≠ ch '[' ∧
        UInt8.ofNat i ≠ ch '"' ∧ UInt8.ofNat i ≠ 0 := by
    decide +kernel
  have hi := h ⟨c.toNat, c.toNat_lt⟩
  rw [UInt8.ofNat_toNat] at hi
  exact hi hc

theorem decodeNumber_number (h : IsNumber b) (hq : NumberEnd q) :
    decodeNumber ignoreSpace (b ++ q) = (b.length, some (.number b)) := by
  obtain ⟨c, t, hb, hc⟩ := h.head
  obtain ⟨st, hst, hr⟩ := numFrac_number h hq
  have hi : ignoreSpace (b ++ q) = b ++ q := by
    rw [hb]
    exact ignoreSpace_cons (isSpace_of_number hc).1 _
  rw [decodeNumber, hi]
  simp only [hr]
  rw [if_neg (by omega), List.length_append, Nat.add_sub_cancel, List.take_left]

theorem decodeNumber_sound (hp : ignoreSpace p = p) (h : (decodeNumber ignoreSpace p).1 ≠ 0) :
    ∃ b q, IsNumber b ∧ p = b ++ q ∧
      decodeNumber ignoreSpace p = (b.length, some (.number b)) := by
  rw [decodeNumber, hp] at h ⊢
  split at h
  · exact absurd rfl h
  · next hodd =>
    obtain ⟨b, hb, hr⟩ := numFrac_sound (show (numFrac 3 0 (numExp p)).1 % 2 = 1 by omega)
    refine ⟨b, _, hb, hr, ?_⟩
    rw [if_neg hodd]
    generalize (numFrac 3 0 (numExp p)).2 = q at hr
    rw [hr, List.length_append, Nat.add_sub_cancel, List.take_left]

end Misc.Dotjson
