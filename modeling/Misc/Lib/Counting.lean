import Mathlib

namespace Misc.Lib
set_option autoImplicit true

section
variable {p : α → Bool} {l : List α} {i : Nat} {a b : α}

theorem toNat_le_countP (h : l[i]? = some a) : (p a).toNat ≤ l.countP p := by
  cases hp : p a with
  | false => exact Nat.zero_le _
  | true => exact List.countP_pos_iff.2 ⟨a, List.mem_of_getElem? h, hp⟩

theorem countP_exchange (h : l[i]? = some a) :
    (l.set i b).countP p + (p a).toNat = l.countP p + (p b).toNat := by
  have hle := toNat_le_countP (p := p) h
  obtain ⟨hlt, rfl⟩ := List.getElem?_eq_some_iff.1 h
  rw [List.countP_set hlt]
  cases ha : p l[i] <;> cases hb : p b <;> simp_all

theorem exists_of_countP_lt (h : l.countP p < l.length) :
    ∃ (i : Nat) (a : α), l[i]? = some a ∧ p a = false := by
  have hnot : ¬ ∀ a ∈ l, p a = true := fun hall => Nat.ne_of_lt h (List.countP_eq_length.2 hall)
  simp only [not_forall, Bool.not_eq_true] at hnot
  obtain ⟨a, ha, hp⟩ := hnot
  obtain ⟨i, hi⟩ := List.mem_iff_getElem?.1 ha
  exact ⟨i, a, hi, hp⟩

end

end Misc.Lib
