import Mathlib.Data.Nat.Digits.Lemmas
import Misc.LibDotJson.Lexemes

namespace Misc.LibDotJson
set_option autoImplicit true

/-! ## Digits -/

theorem asciiDigit_toNat (h : isAsciiDigit c = true) : 48 ≤ c.toNat ∧ c.toNat ≤ 57 := by
  simpa [isAsciiDigit] using h

theorem digit_toNat (h : d < 10) : (digit d).toNat = 48 + d :=
  UInt16.toNat_ofNat_of_lt (show 48 + d < 2 ^ 16 by omega)

theorem isAsciiDigit_digit (h : d < 10) : isAsciiDigit (digit d) = true := by
  rw [isAsciiDigit, digit_toNat h]
  simpa using (by omega : 48 + d ≤ 57)

theorem isDigit_of_ascii (h : isAsciiDigit c = true) : isDigit c = true :=
  inRanges_iff.2 ⟨(48, 57), by decide, asciiDigit_toNat h⟩

theorem ne_of_asciiDigit (h : isAsciiDigit c = true) (hd : isAsciiDigit d = false) : c ≠ d := by
  rintro rfl
  exact Bool.false_ne_true (hd.symm.trans h)

theorem asciiValue_append (s : Str) (c : UInt16) :
    asciiValue (s ++ [c]) = asciiValue s * 10 + (c.toNat - 48) := by
  rw [asciiValue, List.foldl_append]
  rfl

theorem asciiValue_digits {ds : List Nat} (h : ∀ d ∈ ds, d < 10) :
    asciiValue (ds.reverse.map digit) = Nat.ofDigits 10 ds := by
  induction ds with
  | nil => rfl
  | cons d ds ih =>
    have hd := h d List.mem_cons_self
    rw [List.reverse_cons, List.map_append, List.map_singleton,
      asciiValue_append, digit_toNat hd,
      ih fun e he => h e (List.mem_cons_of_mem _ he), Nat.ofDigits_cons]
    show Nat.ofDigits 10 ds * 10 + (48 + d - 48) = d + 10 * Nat.ofDigits 10 ds
    omega

theorem asciiValue_lt {s : Str} (h : ∀ c ∈ s, isAsciiDigit c = true) :
    asciiValue s < 10 ^ s.length := by
  induction s using List.reverseRecOn with
  | nil => decide
  | append_singleton s c ih =>
    have hs := ih fun d hd => h d (List.mem_append_left _ hd)
    have hc := asciiDigit_toNat (h c (List.mem_append_right _ List.mem_cons_self))
    rw [asciiValue_append, List.length_append, List.length_singleton, Nat.pow_succ]
    omega

theorem natToString_ascii (n : Nat) : ∀ c ∈ natToString n, isAsciiDigit c = true := by
  rw [natToString]
  split_ifs
  · exact List.forall_mem_singleton.2 (by decide)
  · intro c hc
    obtain ⟨d, hd, rfl⟩ := List.mem_map.1 hc
    exact isAsciiDigit_digit (Nat.digits_lt_base (by decide) (List.mem_reverse.1 hd))

theorem natToString_ne_nil (n : Nat) : natToString n ≠ [] := by
  rw [natToString]
  split_ifs with hn
  · exact List.cons_ne_nil _ _
  · intro h
    rw [List.map_eq_nil_iff, List.reverse_eq_nil_iff] at h
    exact Nat.digits_ne_nil_iff_ne_zero.2 hn h

theorem asciiValue_natToString (n : Nat) : asciiValue (natToString n) = n := by
  rw [natToString]
  split_ifs with hn
  · rw [hn]
    rfl
  · rw [asciiValue_digits fun d hd => Nat.digits_lt_base (by decide) hd, Nat.ofDigits_digits]

theorem natToString_length (hk : 0 < k) (h : n < 10 ^ k) : (natToString n).length ≤ k := by
  rw [natToString]
  split_ifs
  · exact hk
  · rw [List.length_map, List.length_reverse]
    exact (Nat.digits_length_le_iff (by decide) n).2 h

/-! ## `int` -/

theorem signed_ascii {s : Str} (h : ∀ c ∈ s, isAsciiDigit c = true) : signed s = (false, s) := by
  cases s with
  | nil => rfl
  | cons c s =>
    have hc := h c List.mem_cons_self
    rw [signed, if_neg (ne_of_asciiDigit hc (by decide)),
      if_neg (ne_of_asciiDigit hc (by decide))]

theorem int32TryParse_of {negative : Bool} {digits : Str} (hs : signed s = (negative, digits))
    (hne : digits ≠ []) (hascii : ∀ c ∈ digits, isAsciiDigit c = true) {i : Int32}
    (hi : (if negative then -asciiValue digits else asciiValue digits : Int) = i.toInt) :
    int32TryParse s = some i := by
  rw [int32TryParse, hs]
  dsimp only
  rw [hi, if_pos ⟨hne, List.all_eq_true.2 hascii, i.le_toInt, i.toInt_lt⟩, Int32.ofInt_toInt]

theorem int32TryParse_intToString (i : Int32) : int32TryParse (intToString i) = some i := by
  have hascii := natToString_ascii i.toInt.natAbs
  have hne := natToString_ne_nil i.toInt.natAbs
  rw [intToString]
  split_ifs with hneg
  · have hs : signed (ch '-' :: natToString i.toInt.natAbs) =
        (true, natToString i.toInt.natAbs) :=
      rfl
    apply int32TryParse_of hs hne hascii
    rw [asciiValue_natToString, if_pos rfl]
    omega
  · apply int32TryParse_of (signed_ascii hascii) hne hascii
    rw [asciiValue_natToString, if_neg Bool.false_ne_true]
    omega

/-- The printed form of an integer is not longer than a text that it was read from. -/
theorem intToString_length (h : int32TryParse s = some i) :
    (intToString i).length ≤ s.length := by
  rw [int32TryParse] at h
  generalize hs : signed s = r at h
  obtain ⟨negative, digits⟩ := r
  dsimp only at h
  generalize hi :
    (if negative = true then -asciiValue digits else asciiValue digits : Int) = n at h
  split_ifs at h with hcond
  obtain ⟨hne, hascii, hlow, hhigh⟩ := hcond
  cases h
  have hto : (Int32.ofInt n).toInt = n := Int32.toInt_ofInt_of_le hlow hhigh
  have hdigits := natToString_length (List.length_pos_iff.2 hne)
    (asciiValue_lt (List.all_eq_true.1 hascii))
  have hlen : digits.length + (if negative then 1 else 0) ≤ s.length := by
    cases s with
    | nil =>
      cases hs
      exact absurd rfl hne
    | cons c t =>
      rw [signed] at hs
      split_ifs at hs <;> cases hs <;> simp
  rw [intToString, hto, ← hi]
  cases negative with
  | true =>
    rw [if_pos rfl, Int.natAbs_neg, Int.natAbs_natCast]
    rw [if_pos rfl] at hlen
    split_ifs
    · exact (Nat.succ_le_succ hdigits).trans hlen
    · exact hdigits.trans (Nat.le_of_succ_le hlen)
  | false =>
    rw [if_neg Bool.false_ne_true, if_neg (by omega), Int.natAbs_natCast]
    exact hdigits.trans hlen

theorem numberLoop_ascii {s : Str} (h : ∀ c ∈ s, isAsciiDigit c = true) (frac exp : Bool) :
    numberLoop frac exp s = .ok (some []) := by
  induction s with
  | nil => rw [numberLoop]
  | cons c s ih =>
    have hc := h c List.mem_cons_self
    rw [numberLoop_digit (ne_of_asciiDigit hc (by decide)) _ (isDigit_of_ascii hc),
      ih fun d hd => h d (List.mem_cons_of_mem _ hd)]
    exact not_or.2 ⟨ne_of_asciiDigit hc (by decide), ne_of_asciiDigit hc (by decide)⟩

theorem isNumber_intToString {F : Type} [Single F] (i : Int32) :
    IsNumber (F := F) (intToString i) (.int i) := by
  have hascii := natToString_ascii i.toInt.natAbs
  have hnode : numberNode (F := F) (intToString i) = some (.int i) := by
    rw [numberNode, int32TryParse_intToString]
  obtain ⟨c, t, hs, hc, hloop⟩ : ∃ c t, intToString i = c :: t ∧ StartsNumber c ∧
      numberLoop false false (if c = ch '-' then t else c :: t) = .ok (some []) := by
    rw [intToString]
    split_ifs
    · exact ⟨_, _, rfl, .inr rfl, numberLoop_ascii hascii false false⟩
    · cases hs : natToString i.toInt.natAbs with
      | nil => exact absurd hs (natToString_ne_nil _)
      | cons c t =>
        rw [hs] at hascii
        have hc := hascii c List.mem_cons_self
        refine ⟨c, t, rfl, .inl (isDigit_of_ascii hc), ?_⟩
        rw [if_neg (ne_of_asciiDigit hc (by decide))]
        exact numberLoop_ascii hascii false false
  refine ⟨⟨c, t, hs, hc⟩, ?_⟩
  rw [hs] at hnode ⊢
  rw [parseNumber_eq hloop, List.length_nil, Nat.sub_zero, List.take_length, hnode]

end Misc.LibDotJson
