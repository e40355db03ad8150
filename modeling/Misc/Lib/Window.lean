import Mathlib.Data.List.TakeDrop

namespace Misc.Lib
set_option autoImplicit true

/-- A block is stored in an array at an offset. -/
def store (a : List α) (off : Nat) (b : List α) : List α :=
  a.take off ++ b ++ a.drop (off + b.length)

/-- The cells of an array between two indices. -/
def window (a : List α) (i j : Nat) : List α := (a.take j).drop i

section
variable {a b : List α} {i j n off : Nat}

theorem length_le_store (a : List α) (off : Nat) (b : List α) :
    a.length ≤ (store a off b).length := by
  simp only [store, List.length_append, List.length_take, List.length_drop]
  omega

theorem length_store (h : off + b.length ≤ a.length) : (store a off b).length = a.length := by
  simp only [store, List.length_append, List.length_take, List.length_drop]
  omega

theorem take_store (h : off ≤ a.length) (b : List α) :
    (store a off b).take (off + b.length) = a.take off ++ b :=
  List.take_left' (by rw [List.length_append, List.length_take_of_le h])

theorem length_window (h : j ≤ a.length) : (window a i j).length = j - i := by
  rw [window, List.length_drop, List.length_take_of_le h]

theorem window_eq_nil (h : j ≤ a.length) : window a i j = [] ↔ j ≤ i := by
  rw [← List.length_eq_zero_iff, length_window h, Nat.sub_eq_zero_iff_le]

theorem window_self (a : List α) (i : Nat) : window a i i = [] :=
  List.drop_eq_nil_iff.2 (List.length_take_le i a)

theorem window_store (hi : i ≤ off) (h : off ≤ a.length) (b : List α) :
    window (store a off b) i (off + b.length) = window a i off ++ b := by
  rw [window, take_store h, List.drop_append_of_le_length, window]
  rw [List.length_take_of_le h]
  exact hi

theorem window_split (hn : i + n ≤ j) :
    window a i (i + n) ++ window a (i + n) j = window a i j := by
  have hfirst : window a i (i + n) = (window a i j).take n := by
    rw [window, window, List.drop_take, List.drop_take, List.take_take]
    congr 1
    omega
  have hlast : window a (i + n) j = (window a i j).drop n := by
    rw [window, window, List.drop_drop]
  rw [hfirst, hlast, List.take_append_drop]

end

end Misc.Lib
