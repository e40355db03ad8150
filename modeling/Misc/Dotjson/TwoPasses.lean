import Misc.Dotjson.Sizing

namespace Misc.Dotjson
set_option autoImplicit true

/-- Whatever it stands on, the loop stores only below its limit. -/
theorem unescapeLoop_below (h : unescapeLoop l k p n w = some (q, m, w')) (hw : w.Below l) :
    w'.Below l := by
  induction k generalizing p n w with
  | zero => cases h
  | succ k ih =>
    obtain ⟨r, rfl, heq⟩ | ⟨c, p, -, -, -, -, h⟩ | ⟨e, c, p, -, -, h⟩ | ⟨p, u, -, -, h⟩ :=
      unescapeLoop_cases h
    · cases heq
      exact hw
    · exact ih h (hw.store n c)
    · exact ih h (hw.store n c)
    · apply ih h
      split_ifs with hfit
      · exact hw.append ((Writes.Below.place n (uc2Utf8 u)).mono hfit)
      · exact hw

theorem unescapeStr_below {s : Ptr} (h : unescapeStr s l = some (count, n, w)) : w.Below l := by
  obtain ⟨-, h⟩ := Option.ite_none_right_eq_some.1 h
  obtain ⟨⟨q, m, w'⟩, hloop, heq⟩ := Option.map_eq_some_iff.1 h
  cases heq
  exact unescapeLoop_below hloop (.nil l)

theorem below_zero {w : Writes} (h : w.Below 0) : w = [] :=
  List.eq_nil_iff_forall_not_mem.2 fun x hx => absurd (h x hx) (Nat.not_lt_zero _)

theorem place_indices (n : Nat) (b : List UInt8) :
    (place n b).map Prod.fst = List.range' n b.length := by
  induction b generalizing n with
  | nil => rfl
  | cons c b ih => rw [place, List.map_cons, ih, List.length_cons, List.range'_succ]

/-- A text that starts with no string fails every pass. Over any other the pass without a buffer
and the one with a buffer of the length that it reports agree: the second stores the bytes of
the string, each index once. -/
theorem unescapeStr_passes (s : Ptr) :
    ((∀ l, unescapeStr s l = none) ∧ ¬ ∃ b decoded q, IsString b decoded ∧ s = b ++ q) ∨
    ∃ b decoded q w, IsString b decoded ∧ s = b ++ q ∧
      unescapeStr s 0 = some (b.length, decoded.length, []) ∧
      unescapeStr s decoded.length = some (b.length, decoded.length, w) ∧
      w.map Prod.fst = List.range decoded.length ∧ w.bytes decoded.length = decoded := by
  by_cases hfail : ∀ l, unescapeStr s l = none
  · refine Or.inl ⟨hfail, ?_⟩
    rintro ⟨b, decoded, q, hs, rfl⟩
    obtain ⟨w, hw, -⟩ := unescapeStr_string hs q 0
    rw [hfail 0] at hw
    cases hw
  obtain ⟨l, hl⟩ := Classical.not_forall.1 hfail
  obtain ⟨r, hr⟩ := Option.ne_none_iff_exists'.1 hl
  obtain ⟨b, decoded, q, hs, rfl⟩ := unescapeStr_sound hr
  obtain ⟨w₁, hfirst, -⟩ := unescapeStr_string hs q 0
  obtain ⟨w₂, hsecond, hplace⟩ := unescapeStr_string hs q decoded.length
  have hw₁ := below_zero (unescapeStr_below hfirst)
  have hw₂ := hplace (Nat.le_refl _)
  subst hw₁ hw₂
  refine Or.inr ⟨b, decoded, q, _, hs, rfl, hfirst, hsecond, ?_, bytes_place decoded⟩
  rw [place_indices, List.range_eq_range']

example : unescapeStr [ch '"', ch '\\', ch 'n', ch 'a', ch '"'] 2 =
    some (5, 2, [(0, 0x0a), (1, ch 'a')]) := by decide

end Misc.Dotjson
