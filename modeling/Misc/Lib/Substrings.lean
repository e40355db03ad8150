import Mathlib.Data.List.Basic

namespace Misc.Lib
set_option autoImplicit true

/-- The first place at which a text occurs in another one. -/
def index [BEq α] (sub : List α) : List α → Option Nat
  | [] => if sub.isPrefixOf [] then some 0 else none
  | c :: s => if sub.isPrefixOf (c :: s) then some 0 else (index sub s).map (· + 1)

/-- Cuts a text at most `n` times. -/
def splitMost [BEq α] (sub : List α) : Nat → List α → List (List α)
  | 0, s => [s]
  | n + 1, s =>
    match index sub s with
    | none => [s]
    | some i => s.take i :: splitMost sub n (s.drop (i + sub.length))

/-- The pieces of a text between the occurrences of another one, each of them the first behind
the last one. -/
inductive Pieces (sub : List α) : List α → List (List α) → Prop
  | last : ¬ sub <:+: s → Pieces sub s [s]
  | cut : (∀ t u, x ++ sub ++ s = t ++ sub ++ u → x.length ≤ t.length) → Pieces sub s ps →
      Pieces sub (x ++ sub ++ s) (x :: ps)

/-- Leaves only the first `n` cuts. -/
def gather (sub : List α) : Nat → List (List α) → List (List α)
  | _, [] => []
  | _, [x] => [x]
  | 0, x :: y :: ps => [sub.intercalate (x :: y :: ps)]
  | n + 1, x :: y :: ps => x :: gather sub n (y :: ps)

section
variable {sub s : List α} {ps : List (List α)}

theorem Pieces.ne_nil (h : Pieces sub s ps) : ps ≠ [] := by
  cases h <;> exact List.cons_ne_nil _ _

theorem Pieces.text (h : Pieces sub s ps) : sub.intercalate ps = s := by
  induction h with
  | last _ => exact List.intercalate_singleton
  | cut _ h ih => rw [List.intercalate_cons_of_ne_nil h.ne_nil, ih]

theorem Pieces.length_le (h : Pieces sub s ps) (hsub : sub ≠ []) : ps.length ≤ s.length + 1 := by
  have hpos := List.length_pos_iff.2 hsub
  induction h with
  | last _ =>
    rw [List.length_singleton]
    omega
  | cut _ _ ih =>
    rw [List.length_cons, List.length_append, List.length_append]
    omega

theorem gather_zero (h : ps ≠ []) : gather sub 0 ps = [sub.intercalate ps] := by
  cases ps with
  | nil => exact absurd rfl h
  | cons x ps =>
    cases ps with
    | nil => rw [gather, List.intercalate_singleton]
    | cons y ps => rw [gather]

theorem gather_succ (h : ps ≠ []) (n : Nat) :
    gather sub (n + 1) (x :: ps) = x :: gather sub n ps := by
  cases ps with
  | nil => exact absurd rfl h
  | cons y ps => rw [gather]

theorem gather_length (n : Nat) (h : ps ≠ []) :
    (gather sub n ps).length = min n (ps.length - 1) + 1 := by
  induction ps generalizing n with
  | nil => exact absurd rfl h
  | cons x ps ih =>
    by_cases hnil : ps = []
    · rw [hnil, gather, List.length_singleton, Nat.sub_self, Nat.min_zero]
    · have hpos := List.length_pos_iff.2 hnil
      cases n with
      | zero => rw [gather_zero h, List.length_singleton, Nat.zero_min]
      | succ n =>
        rw [gather_succ hnil, List.length_cons, ih n hnil, List.length_cons]
        omega

theorem gather_of_le {n : Nat} (h : ps.length ≤ n + 1) : gather sub n ps = ps := by
  induction ps generalizing n with
  | nil => rw [gather]
  | cons x ps ih =>
    by_cases hnil : ps = []
    · rw [hnil, gather]
    · have hpos := List.length_pos_iff.2 hnil
      rw [List.length_cons] at h
      obtain ⟨m, rfl⟩ : ∃ m, n = m + 1 := ⟨n - 1, by omega⟩
      rw [gather_succ hnil, ih (by omega)]

end

section
variable [BEq α] [LawfulBEq α] {sub s t : List α} {a : α} {ps : List (List α)}

theorem index_eq_some (h : index sub s = some i) : ∃ t u, s = t ++ sub ++ u ∧ t.length = i := by
  induction s generalizing i with
  | nil =>
    obtain ⟨hp, h⟩ := Option.ite_none_right_eq_some.1 h
    obtain ⟨u, hu⟩ := List.isPrefixOf_iff_prefix.1 hp
    cases h
    exact ⟨[], u, hu.symm, rfl⟩
  | cons c s ih =>
    rw [index] at h
    split_ifs at h with hp
    · obtain ⟨u, hu⟩ := List.isPrefixOf_iff_prefix.1 hp
      cases h
      exact ⟨[], u, hu.symm, rfl⟩
    · obtain ⟨j, hj, rfl⟩ := Option.map_eq_some_iff.1 h
      obtain ⟨t, u, rfl, rfl⟩ := ih hj
      exact ⟨c :: t, u, rfl, rfl⟩

theorem index_le (h : index sub (t ++ sub ++ u) = some i) : i ≤ t.length := by
  induction t generalizing i with
  | nil =>
    have hp : sub.isPrefixOf ([] ++ sub ++ u) :=
      List.isPrefixOf_iff_prefix.2 (List.prefix_append _ _)
    cases hs : ([] : List α) ++ sub ++ u with
    | nil =>
      rw [hs] at h hp
      rw [index, if_pos hp] at h
      cases h
      exact Nat.zero_le _
    | cons c s =>
      rw [hs] at h hp
      rw [index, if_pos hp] at h
      cases h
      exact Nat.zero_le _
  | cons c t ih =>
    rw [List.cons_append, List.cons_append, index] at h
    split_ifs at h with hp
    · cases h
      exact Nat.zero_le _
    · obtain ⟨j, hj, rfl⟩ := Option.map_eq_some_iff.1 h
      exact Nat.succ_le_succ (ih hj)

theorem index_eq_none (h : index sub s = none) : ¬ sub <:+: s := by
  induction s with
  | nil =>
    rw [index] at h
    split_ifs at h with hp
    intro hin
    rw [List.infix_nil] at hin
    rw [hin] at hp
    exact hp rfl
  | cons c s ih =>
    rw [index] at h
    split_ifs at h with hp
    rw [List.infix_cons_iff, not_or]
    exact ⟨fun hpre => hp (List.isPrefixOf_iff_prefix.2 hpre), ih (Option.map_eq_none_iff.1 h)⟩

/-- A text that begins with `a` does not begin inside one without it. -/
theorem index_append (hs : a ∉ s) (sub t : List α) :
    index (a :: sub) (s ++ a :: t) =
      if sub.isPrefixOf t then some s.length
        else (index (a :: sub) t).map (· + (s.length + 1)) := by
  induction s with
  | nil =>
    have hpre : (a :: sub).isPrefixOf (a :: t) = sub.isPrefixOf t := by
      rw [List.isPrefixOf_cons_cons, beq_self_eq_true, Bool.true_and]
    rw [List.nil_append, index, hpre]
    rfl
  | cons c s ih =>
    rw [List.mem_cons, not_or] at hs
    have hpre : (a :: sub).isPrefixOf (c :: (s ++ a :: t)) = false := by
      rw [List.isPrefixOf_cons_cons, beq_eq_false_iff_ne.2 hs.1, Bool.false_and]
    rw [List.cons_append, index, hpre, if_neg Bool.false_ne_true, ih hs.2]
    split_ifs
    · rfl
    · rw [Option.map_map]
      rfl

theorem index_none_of_not_mem (hs : a ∉ s) (sub : List α) : index (a :: sub) s = none := by
  by_contra hne
  obtain ⟨i, hi⟩ := Option.ne_none_iff_exists'.1 hne
  obtain ⟨t, u, rfl, -⟩ := index_eq_some hi
  refine hs (List.mem_append_left _ (List.mem_append_right _ List.mem_cons_self))

theorem index_first (h : ∀ t u, x ++ sub ++ s = t ++ sub ++ u → x.length ≤ t.length) :
    index sub (x ++ sub ++ s) = some x.length := by
  cases hi : index sub (x ++ sub ++ s) with
  | none => exact absurd ⟨x, s, rfl⟩ (index_eq_none hi)
  | some i =>
    obtain ⟨t, u, heq, rfl⟩ := index_eq_some hi
    rw [Nat.le_antisymm (index_le hi) (h t u heq)]

theorem splitMost_eq (h : Pieces sub s ps) (n : Nat) : splitMost sub n s = gather sub n ps := by
  induction h generalizing n with
  | @last s hno =>
    cases n with
    | zero => rw [splitMost, gather]
    | succ n =>
      cases hi : index sub s with
      | none => rw [splitMost, hi, gather]
      | some i =>
        obtain ⟨t, u, heq, -⟩ := index_eq_some hi
        exact absurd ⟨t, u, heq.symm⟩ hno
  | @cut s x ps hfirst h ih =>
    cases n with
    | zero =>
      rw [splitMost, gather_zero (List.cons_ne_nil _ _),
        List.intercalate_cons_of_ne_nil h.ne_nil, h.text]
    | succ n =>
      rw [splitMost, index_first hfirst, gather_succ h.ne_nil]
      dsimp only
      rw [List.append_assoc, List.take_left, ← List.append_assoc,
        ← List.length_append, List.drop_left, ih]

theorem pieces_splitMost (hsub : sub ≠ []) {n : Nat} (h : s.length ≤ n) :
    Pieces sub s (splitMost sub n s) := by
  have hpos := List.length_pos_iff.2 hsub
  induction n generalizing s with
  | zero =>
    rw [splitMost]
    refine .last fun hin => ?_
    have hlen := hin.length_le
    omega
  | succ n ih =>
    rw [splitMost]
    cases hi : index sub s with
    | none => exact .last (index_eq_none hi)
    | some i =>
      obtain ⟨t, u, rfl, rfl⟩ := index_eq_some hi
      dsimp only
      rw [List.append_assoc, List.take_left, ← List.append_assoc,
        ← List.length_append, List.drop_left]
      refine .cut (fun t' u' heq => ?_) (ih ?_)
      · rw [heq] at hi
        exact index_le hi
      · rw [List.length_append, List.length_append] at h
        omega

end

end Misc.Lib
