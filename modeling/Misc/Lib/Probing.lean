import Mathlib.Data.List.Basic

namespace Misc.Lib.Probing
set_option autoImplicit true

/-! Open addressing: an element goes to the first free slot of a sequence of its own, and is
looked for along this sequence up to the first free slot. -/

section
variable {β : Type} {seq : β → Nat → Nat} {slots : List (Option β)} {hit : β → Bool}

/-- The slot holds the element. -/
def Holds (slots : List (Option β)) (j : Nat) (e : β) : Prop := slots[j]? = some (some e)

def Taken (slots : List (Option β)) (j : Nat) : Prop := ∃ e, Holds slots j e

/-- Each element lies on its own sequence, with no free slot before it. -/
def Chained (seq : β → Nat → Nat) (n : Nat) (slots : List (Option β)) : Prop :=
  ∀ j e, Holds slots j e → ∃ i < n, seq e i = j ∧ ∀ i' < i, Taken slots (seq e i')

/-- Looks at `n` slots of a sequence, the first of them with number `i`. -/
def search (hit : β → Bool) (seq : Nat → Nat) (slots : List (Option β)) : Nat → Nat → Option Nat
  | 0, _ => none
  | n + 1, i =>
    match slots.getD (seq i) none with
    | none => none
    | some e => if hit e then some (seq i) else search hit seq slots n (i + 1)

theorem Holds.getD (h : Holds slots j e) : slots.getD j none = some e := by
  rw [List.getD_eq_getElem?_getD, h]
  rfl

theorem holds_of_getD (h : slots.getD j none = some e) : Holds slots j e := by
  rw [List.getD_eq_getElem?_getD] at h
  cases hj : slots[j]? with
  | none =>
    rw [hj] at h
    cases h
  | some x =>
    rw [hj] at h
    cases h
    exact hj

theorem not_holds_replicate (n j : Nat) (e : β) : ¬ Holds (List.replicate n none) j e := by
  intro h
  rw [Holds, List.getElem?_replicate] at h
  split at h <;> cases h

theorem chained_replicate (seq : β → Nat → Nat) (n m : Nat) :
    Chained seq n (List.replicate m none) :=
  fun j e h => absurd h (not_holds_replicate m j e)

theorem Taken.set (h : Taken slots j) (k : Nat) (e : β) : Taken (slots.set k (some e)) j := by
  obtain ⟨e', he'⟩ := h
  by_cases hk : k = j
  · subst hk
    exact ⟨e, List.getElem?_set_self (List.getElem?_eq_some_iff.1 he').1⟩
  · exact ⟨e', (List.getElem?_set_ne hk).trans he'⟩

theorem Chained.set {e : β} {i : Nat} (h : Chained seq n slots) (hi : i < n)
    (hbefore : ∀ i' < i, Taken slots (seq e i')) :
    Chained seq n (slots.set (seq e i) (some e)) := by
  intro j e' hj
  by_cases hne : seq e i = j
  · rw [Holds, ← hne, List.getElem?_set_self'] at hj
    obtain ⟨x, -, hx⟩ := Option.map_eq_some_iff.1 hj
    cases hx
    exact ⟨i, hi, hne, fun i' hi' => (hbefore i' hi').set _ _⟩
  · rw [Holds, List.getElem?_set_ne hne] at hj
    obtain ⟨i', hi', hseq, htaken⟩ := h j e' hj
    exact ⟨i', hi', hseq, fun k hk => (htaken k hk).set _ _⟩

theorem search_eq {seq : Nat → Nat} {n i t : Nat} {e : β} (hhit : hit e = true)
    (hheld : Holds slots (seq t) e)
    (honly : ∀ j e', Holds slots j e' → hit e' = true → j = seq t)
    (hle : i ≤ t) (hlt : t < i + n)
    (htaken : ∀ k < t, Taken slots (seq k)) : search hit seq slots n i = some (seq t) := by
  induction n generalizing i with
  | zero => omega
  | succ n ih =>
    rw [search]
    obtain heq | hlt' := Nat.eq_or_lt_of_le hle
    · rw [heq, hheld.getD]
      dsimp only
      rw [if_pos hhit]
    · obtain ⟨e', he'⟩ := htaken i hlt'
      rw [he'.getD]
      dsimp only
      split
      · next hhit' => rw [honly _ _ he' hhit']
      · exact ih hlt' (by omega)

theorem search_eq_none {seq : Nat → Nat}
    (h : ∀ j e, Holds slots j e → hit e = false) (n i : Nat) :
    search hit seq slots n i = none := by
  induction n generalizing i with
  | zero => rfl
  | succ n ih =>
    rw [search]
    cases hj : slots.getD (seq i) none with
    | none => rfl
    | some e =>
      dsimp only
      rw [h _ _ (holds_of_getD hj)]
      exact ih (i + 1)

end

end Misc.Lib.Probing
