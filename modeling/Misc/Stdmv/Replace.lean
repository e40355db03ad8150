import Mathlib
import Misc.Lib.Substrings

namespace Misc.Stdmv
open Misc.Lib
set_option autoImplicit true

/-- `bytes.SplitN` with a separator that is not empty. -/
def splitN (s sep : List UInt8) (n : Int) : List (List UInt8) :=
  if n = 0 then []
  else splitMost sep (if n < 0 then s.length else min (n - 1).toNat s.length) s

def xjoin (sep : α → α) : List α → List α
  | [] => []
  | x :: a => x :: a.flatMap fun x => [sep x, x]

def xflatn (f : α → Int → List α × Nat) (n : Int) : List α → List α
  | [] => []
  | x :: a =>
    if n = 0 then x :: a
    else
      let (b, k) := f x n
      b ++ xflatn f (if 0 < n then (if (k : Int) < n then n - k else 0) else n) a

/-- The argument `to`, which is one of two kinds. -/
inductive To
  | bytes (val : List UInt8)
  | func (val : List UInt8 → List UInt8)

def To.sep : To → List UInt8 → List UInt8
  | .bytes val => fun _ => val
  | .func val => val

/-- The function that `shallowReplace` hands to `xflatn`. -/
def replaceIn (find : List UInt8) (repl : To) (t : List UInt8) (m : Int) :
    List (List UInt8) × Nat :=
  let parts := splitN t find (if 0 < m then m + 1 else m)
  if parts.length = 1 then (parts, 0) else (xjoin repl.sep parts, parts.length - 1)

def shallowReplace (segs : List (List UInt8)) (find : List UInt8) (repl : To) (n : Int) :
    List (List UInt8) :=
  xflatn (replaceIn find repl) n segs

/-- The pieces of a segment put together again, with the first `k` occurrences between them
replaced. `next` gives the text for a replacement, from what remains to be replaced and the
pieces behind. -/
def replaced (next : Nat → List (List UInt8) → List UInt8) (find : List UInt8)
    (sep : List UInt8 → List UInt8) : Nat → List (List UInt8) → List UInt8
  | _, [] => []
  | _, [x] => x
  | 0, x :: y :: ps => x ++ find ++ replaced next find sep 0 (y :: ps)
  | k + 1, x :: y :: ps => x ++ sep (next k (y :: ps)) ++ replaced next find sep k (y :: ps)

/-- The text up to the next occurrence. -/
def upToNext (_ : Nat) (ps : List (List UInt8)) : List UInt8 := ps.headD []

/-- The text up to the next occurrence that is replaced, or to the end. -/
def upToReplaced (find : List UInt8) (k : Nat) (ps : List (List UInt8)) : List UInt8 :=
  if k = 0 then find.intercalate ps else ps.headD []

/-- The occurrences that are replaced in each segment: `n` of them from the front. -/
def shares : Nat → List Nat → List Nat
  | _, [] => []
  | n, k :: ks => min n k :: shares (n - k) ks

/-- The greatest number of replacements; a negative number is no limit. -/
def limit (n : Int) (total : Nat) : Nat := if n < 0 then total else n.toNat

def counts (pss : List (List (List UInt8))) : List Nat := pss.map fun ps => ps.length - 1

theorem shares_sum (n : Nat) (ks : List Nat) : (shares n ks).sum = min n ks.sum := by
  induction ks generalizing n with
  | nil => rw [shares, List.sum_nil, Nat.min_zero]
  | cons k ks ih =>
    rw [shares, List.sum_cons, List.sum_cons, ih]
    omega

section
variable {find t : List UInt8} {ps : List (List UInt8)} {repl : To}

theorem replaced_zero (next : Nat → List (List UInt8) → List UInt8)
    (sep : List UInt8 → List UInt8)
    (ps : List (List UInt8)) : replaced next find sep 0 ps = find.intercalate ps := by
  induction ps with
  | nil => rfl
  | cons x ps ih =>
    cases ps with
    | nil => rw [replaced, List.intercalate_singleton]
    | cons y ps => rw [replaced, ih, List.intercalate_cons_cons]

theorem xjoin_flatten (sep : List UInt8 → List UInt8) (k : Nat)
    (x : List UInt8) (hne : ps ≠ []) : (xjoin sep (gather find (k + 1) (x :: ps))).flatten =
      replaced (upToReplaced find) find sep (k + 1) (x :: ps) := by
  rw [gather_succ hne]
  induction ps generalizing k x with
  | nil => exact absurd rfl hne
  | cons y ps ih =>
    by_cases hnil : ps = []
    · subst hnil
      rw [gather, replaced, replaced, upToReplaced, List.intercalate_singleton,
        List.headD_cons, ite_self]
      simp [xjoin]
    · rw [replaced.eq_4]
      cases k with
      | zero =>
        rw [gather_zero (List.cons_ne_nil _ _), replaced_zero, upToReplaced, if_pos rfl]
        simp [xjoin]
      | succ k =>
        have ih := ih k y hnil
        rw [xjoin, List.flatten_cons] at ih
        rw [gather_succ hnil, upToReplaced, if_neg (Nat.succ_ne_zero k), List.headD_cons, xjoin,
          List.flatMap_cons, List.flatten_cons, List.flatten_append, ← ih]
        simp

theorem replaced_min (sep : List UInt8 → List UInt8) (k : Nat) (ps : List (List UInt8)) :
    replaced (upToReplaced find) find sep (min k (ps.length - 1)) ps =
      replaced (upToReplaced find) find sep k ps := by
  induction ps generalizing k with
  | nil => rfl
  | cons x ps ih =>
    cases ps with
    | nil => rw [replaced, replaced]
    | cons y ps =>
      cases k with
      | zero => rw [Nat.zero_min]
      | succ k =>
        have hmin : min (k + 1) ((x :: y :: ps).length - 1) =
            min k ((y :: ps).length - 1) + 1 := by
          rw [List.length_cons, List.length_cons]
          omega
        rw [hmin, replaced, replaced, ih]
        congr 3
        rw [upToReplaced, upToReplaced]
        cases ps with
        | nil => rw [List.intercalate_singleton, List.headD_cons, ite_self, ite_self]
        | cons z ps =>
          congr 1
          rw [List.length_cons, List.length_cons, eq_iff_iff]
          omega

/-- What one segment becomes if `k` of its pieces are cut off. -/
theorem replaceIn_gather (hne : ps ≠ []) {k : Nat} {m : Int} (hk : 0 < k)
    (h : splitN t find (if 0 < m then m + 1 else m) = gather find k ps) :
    (replaceIn find repl t m).1.flatten = replaced (upToReplaced find) find repl.sep k ps ∧
      (replaceIn find repl t m).2 = min k (ps.length - 1) := by
  obtain ⟨x, ps, rfl⟩ := List.exists_cons_of_ne_nil hne
  have hlen := @gather_length _ find _ k hne
  by_cases hnil : ps = []
  · subst hnil
    rw [replaceIn, h, gather, replaced]
    simp
  · have hpos := List.length_pos_iff.2 hnil
    rw [List.length_cons] at hlen ⊢
    obtain ⟨j, rfl⟩ : ∃ j, k = j + 1 := ⟨k - 1, by omega⟩
    rw [replaceIn, h, if_neg (by omega), hlen]
    exact ⟨xjoin_flatten repl.sep j x hnil, by dsimp only; omega⟩

variable (hfind : find ≠ []) (h : Pieces find t ps)
include hfind h

theorem replaceIn_pos {m : Nat} (hm : 0 < m) :
    (replaceIn find repl t m).1.flatten = replaced (upToReplaced find) find repl.sep m ps ∧
      (replaceIn find repl t m).2 = min m (ps.length - 1) := by
  apply replaceIn_gather h.ne_nil hm
  have hle := h.length_le hfind
  have hsplit : splitN t find ((m : Int) + 1) = gather find (min m t.length) ps := by
    rw [splitN, if_neg (by omega), if_neg (by omega), Int.add_sub_cancel, Int.toNat_natCast,
      splitMost_eq h]
  rw [if_pos (by omega), hsplit]
  rcases Nat.le_total m t.length with hlt | hgt
  · rw [Nat.min_eq_left hlt]
  · rw [Nat.min_eq_right hgt, gather_of_le hle, gather_of_le (by omega)]

theorem replaceIn_neg {m : Int} (hm : m < 0) :
    (replaceIn find repl t m).1.flatten =
        replaced (upToReplaced find) find repl.sep (ps.length - 1) ps ∧
      (replaceIn find repl t m).2 = ps.length - 1 := by
  have hle := h.length_le hfind
  have hall := @replaceIn_gather find t ps repl h.ne_nil (ps.length + 1) m (Nat.succ_pos _) (by
    rw [if_neg (by omega), splitN, if_neg (by omega), if_pos hm,
      splitMost_eq h, gather_of_le hle, gather_of_le (by omega)])
  rw [← replaced_min, Nat.min_eq_right (by omega)] at hall
  exact hall

end

section
variable {find : List UInt8} {repl : To} {segs : List (List UInt8)}
  {pss : List (List (List UInt8))}

theorem replaced_none (h : List.Forall₂ (Pieces find) segs pss) :
    (List.zipWith (replaced (upToReplaced find) find repl.sep)
      (shares 0 (counts pss)) pss).flatten = segs.flatten := by
  induction h with
  | nil => rfl
  | @cons t ps segs pss h _ ih =>
    have hshares : shares 0 (counts (ps :: pss)) = 0 :: shares 0 (counts pss) := by
      rw [counts, List.map_cons, shares, Nat.zero_min, Nat.zero_sub, counts]
    rw [hshares, List.zipWith_cons_cons, List.flatten_cons, List.flatten_cons, ih, replaced_zero,
      h.text]

theorem xflatn_nat (hfind : find ≠ []) (h : List.Forall₂ (Pieces find) segs pss) (n : Nat) :
    (xflatn (replaceIn find repl) n segs).flatten =
      (List.zipWith (replaced (upToReplaced find) find repl.sep)
        (shares n (counts pss)) pss).flatten := by
  induction h generalizing n with
  | nil => rfl
  | @cons t ps segs pss h hrest ih =>
    rcases Nat.eq_zero_or_pos n with rfl | hn
    · rw [replaced_none (hrest.cons h), xflatn, if_pos Int.natCast_zero]
    · obtain ⟨htext, hcount⟩ := @replaceIn_pos find t ps repl hfind h n hn
      have hshares : shares n (counts (ps :: pss)) =
          min n (ps.length - 1) :: shares (n - (ps.length - 1)) (counts pss) := by
        rw [counts, List.map_cons, shares, counts]
      have hrem : (if 0 < (n : Int) then (if ((replaceIn find repl t n).2 : Int) < n then
          (n : Int) - (replaceIn find repl t n).2 else 0) else n) =
            ((n - (ps.length - 1) : Nat) : Int) := by
        rw [hcount]
        split_ifs <;> omega
      rw [xflatn, if_neg (by omega)]
      dsimp only
      rw [hrem, List.flatten_append, htext, ih, hshares,
        List.zipWith_cons_cons, List.flatten_cons, replaced_min]

theorem xflatn_neg (hfind : find ≠ []) (h : List.Forall₂ (Pieces find) segs pss)
    {n : Int} (hn : n < 0) : (xflatn (replaceIn find repl) n segs).flatten =
      (List.zipWith (replaced (upToReplaced find) find repl.sep)
        (shares (counts pss).sum (counts pss)) pss).flatten := by
  induction h with
  | nil => rfl
  | @cons t ps segs pss h hrest ih =>
    obtain ⟨htext, -⟩ := @replaceIn_neg find t ps repl hfind h n hn
    have hshares : shares (counts (ps :: pss)).sum (counts (ps :: pss)) =
        (ps.length - 1) :: shares (counts pss).sum (counts pss) := by
      rw [counts, List.map_cons, List.sum_cons, shares, Nat.add_sub_cancel_left, counts,
        Nat.min_eq_right (Nat.le_add_right _ _)]
    rw [xflatn, if_neg (by omega)]
    dsimp only
    rw [if_neg (by omega), List.flatten_append, htext, ih, hshares,
      List.zipWith_cons_cons, List.flatten_cons]

end

/-- The segments with the first occurrences in them replaced, as many as `n` allows. The text
for a replacement reaches up to the next one in the segment. -/
theorem shallowReplace_flatten (segs : List (List UInt8)) (find : List UInt8)
    (repl : To) (n : Int)
    (hfind : find ≠ []) (pss : List (List (List UInt8)))
    (h : List.Forall₂ (Pieces find) segs pss) : (shallowReplace segs find repl n).flatten =
      (List.zipWith (replaced (upToReplaced find) find repl.sep)
        (shares (limit n (counts pss).sum) (counts pss)) pss).flatten := by
  rw [shallowReplace, limit]
  split_ifs with hn
  · exact xflatn_neg hfind h hn
  · have hnat := @xflatn_nat find repl segs pss hfind h n.toNat
    rwa [Int.toNat_of_nonneg (by omega)] at hnat

def twoCrosses : List UInt8 := [97, 88, 98, 88, 99]

theorem twoCrosses_pieces :
    List.Forall₂ (Pieces [88]) [twoCrosses] [splitMost [88] 5 twoCrosses] := by
  refine .cons (pieces_splitMost (List.cons_ne_nil _ _) ?_) .nil
  decide

theorem shallowReplace_flatten_twoCrosses :
    (shallowReplace [twoCrosses] [88] (.bytes [43]) 1).flatten = [97, 43, 98, 88, 99] := by
  rw [shallowReplace_flatten [twoCrosses] [88] (.bytes [43]) 1 (List.cons_ne_nil _ _) _
    twoCrosses_pieces]
  rfl

/-- The function is given `bXc` and not `b`. -/
theorem next_passed_over :
    ¬ ∀ (segs : List (List UInt8)) (find : List UInt8) (repl : To) (n : Int),
    find ≠ [] → 0 ≤ n ∨ n = -1 → ∀ pss, List.Forall₂ (Pieces find) segs pss →
      (shallowReplace segs find repl n).flatten =
        (List.zipWith (replaced upToNext find repl.sep)
          (shares (limit n (counts pss).sum) (counts pss)) pss).flatten := by
  intro h
  have heq := h [twoCrosses] [88] (.func id) 1 (List.cons_ne_nil _ _) (Or.inl (by decide)) _
    twoCrosses_pieces
  exact absurd heq (by decide)

end Misc.Stdmv
