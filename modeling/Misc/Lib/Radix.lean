import Mathlib.Data.Nat.Digits.Defs

namespace Misc.Lib
set_option autoImplicit true

section
variable {b : Nat} {f : Nat → Nat} {l : List Nat}

theorem foldl_reverse_ofDigits (b : Nat) (f : Nat → Nat) (l : List Nat) :
    l.reverse.foldl (fun t d => t * b + f d) 0 = Nat.ofDigits b (l.map f) := by
  rw [List.foldl_reverse, Nat.ofDigits_eq_foldr, List.foldr_map]
  congr 1
  funext d t
  rw [Nat.cast_id, Nat.mul_comm, Nat.add_comm]

/-- Misread digits give another number. -/
theorem ofDigits_map_eq_iff (hb : 1 < b) (hl : ∀ d ∈ l, d < b) (hf : ∀ d ∈ l, f d < b) :
    Nat.ofDigits b (l.map f) = Nat.ofDigits b l ↔ ∀ d ∈ l, f d = d := by
  have hself : l.map f = l ↔ ∀ d ∈ l, f d = d := by
    rw [← List.map_id l, List.map_map, List.map_inj_left, List.map_id]
    rfl
  rw [← hself]
  exact ⟨Nat.ofDigits_inj_of_len_eq hb (List.length_map f) (List.forall_mem_map.2 hf) hl,
    congrArg (Nat.ofDigits b)⟩

theorem ofDigits_map_lt {k : Nat} (hb : 1 < b) (hf : ∀ d ∈ l, f d < b) (hk : l.length ≤ k) :
    Nat.ofDigits b (l.map f) < b ^ k := by
  apply Nat.lt_of_lt_of_le (Nat.ofDigits_lt_base_pow_length hb (List.forall_mem_map.2 hf))
  · rw [List.length_map]
    exact Nat.pow_le_pow_right (by omega) hk

end

end Misc.Lib
