import Mathlib

namespace Misc.Lib
set_option autoImplicit true

/-- The word is less than half a turn ahead of the base. -/
def Ahead (base x : BitVec w) : Prop := 2 * (x - base).toNat < 2 ^ w

namespace Ahead

variable {base x y : BitVec w}

theorem toInt_eq (h : Ahead base x) : (x - base).toInt = (x - base).toNat :=
  BitVec.toInt_eq_toNat_of_lt h

/-- Of two words ahead of one base, the signed difference is the true one. -/
theorem toInt_sub (hx : Ahead base x) (hy : Ahead base y) :
    (x - y).toInt = (x - base).toNat - (y - base).toNat := by
  have hsub : x - y = x - base - (y - base) := by
    rw [BitVec.sub_sub, BitVec.add_comm, BitVec.sub_add_cancel]
  rw [Ahead] at hx hy
  rw [hsub, BitVec.toInt_sub, toInt_eq hx, toInt_eq hy]
  generalize 2 ^ w = m at hx hy ⊢
  apply Int.bmod_eq_of_le_mul_two <;> omega

theorem sub_neg_iff (hx : Ahead base x) (hy : Ahead base y) :
    (x - y).toInt < 0 ↔ (x - base).toNat < (y - base).toNat := by
  rw [hx.toInt_sub hy]
  omega

theorem sub_pos_iff (hx : Ahead base x) (hy : Ahead base y) :
    0 < (x - y).toInt ↔ (y - base).toNat < (x - base).toNat := by
  rw [hx.toInt_sub hy]
  omega

theorem of_not_neg (h : ¬ (x - base).toInt < 0) : Ahead base x := by
  rw [BitVec.toInt_eq_toNat_cond] at h
  rw [Ahead]
  by_contra hlt
  rw [if_neg hlt] at h
  omega

theorem toNat_inj (base : BitVec w) (h : (x - base).toNat = (y - base).toNat) : x = y := by
  have hsub := BitVec.eq_of_toNat_eq h
  rw [← BitVec.sub_add_cancel x base, hsub, BitVec.sub_add_cancel]

end Ahead

/-- A relation that is transitive on the elements of a list leaves one of them with nothing
before it. -/
theorem exists_first {r : α → α → Prop} {l : List α} (hne : l ≠ []) (hirrefl : ∀ a ∈ l, ¬ r a a)
    (htrans : ∀ a ∈ l, ∀ b ∈ l, ∀ c ∈ l, r a b → r b c → r a c) : ∃ m ∈ l, ∀ a ∈ l, ¬ r a m := by
  induction l with
  | nil => exact absurd rfl hne
  | cons x l ih =>
    have hx := List.mem_cons_self (a := x) (l := l)
    have hsub {a : α} (ha : a ∈ l) : a ∈ x :: l := List.mem_cons_of_mem _ ha
    by_cases hnil : l = []
    · refine ⟨x, hx, fun a ha => ?_⟩
      rw [hnil] at ha
      rw [List.mem_singleton.1 ha]
      exact hirrefl x hx
    · obtain ⟨m, hm, hfirst⟩ := ih hnil (fun a ha => hirrefl a (hsub ha)) fun a ha b hb c hc =>
        htrans a (hsub ha) b (hsub hb) c (hsub hc)
      by_cases hxm : r x m
      · refine ⟨x, hx, fun a ha hax => ?_⟩
        rcases List.mem_cons.1 ha with rfl | hal
        · exact hirrefl _ hx hax
        · exact hfirst a hal (htrans a ha x hx m (hsub hm) hax hxm)
      · refine ⟨m, hsub hm, fun a ha ham => ?_⟩
        rcases List.mem_cons.1 ha with rfl | ha
        · exact hxm ham
        · exact hfirst a ha ham

end Misc.Lib
