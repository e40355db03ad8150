import Mathlib

namespace Misc.Lib
set_option autoImplicit true

/-- What is left of a text after `n` symbols. -/
def shift (c : Nat → α) (n : Nat) : Nat → α := fun k => c (n + k)

def Begins (c : Nat → α) (l : List α) : Prop := ∀ k (h : k < l.length), c k = l[k]

/-- A reader of words that finds where the first word of a text ends from that word alone. -/
structure Delimited (α : Type) where
  next : (Nat → α) → Option Nat
  pos : ∀ c n, next c = some n → 0 < n
  congr : ∀ c c' n, next c = some n → (∀ k < n, c' k = c k) → next c' = some n

section
variable {c : Nat → α} {l l' : List α}

theorem begins_append : Begins c (l ++ l') ↔ Begins c l ∧ Begins (shift c l.length) l' := by
  constructor
  · refine fun h => ⟨fun k hk => ?_, fun k hk => ?_⟩
    · rw [h k (by rw [List.length_append]; omega), List.getElem_append_left hk]
    · rw [shift, h (l.length + k) (by rw [List.length_append]; omega),
        List.getElem_append_right (Nat.le_add_right _ _)]
      congr 1
      omega
  · rintro ⟨h, h'⟩ k hk
    by_cases hlt : k < l.length
    · rw [h k hlt, List.getElem_append_left hlt]
    · have hk' : k - l.length < l'.length := by
        rw [List.length_append] at hk
        omega
      rw [List.getElem_append_right (Nat.le_of_not_lt hlt), ← h' (k - l.length) hk', shift,
        Nat.add_sub_cancel' (Nat.le_of_not_lt hlt)]

theorem exists_begins (hl : l ≠ []) : ∃ c, Begins c l := by
  obtain ⟨a, l', rfl⟩ := List.exists_cons_of_ne_nil hl
  refine ⟨fun k => ((a :: l')[k]?).getD a, fun k hk => ?_⟩
  change ((a :: l')[k]?).getD a = _
  rw [List.getElem?_eq_getElem hk, Option.getD_some]

end

namespace Delimited

variable {D : Delimited α} {c : Nat → α} {w : List α}

def Word (D : Delimited α) (w : List α) : Prop := ∃ c, Begins c w ∧ D.next c = some w.length

theorem Word.next (h : D.Word w) (hc : Begins c w) : D.next c = some w.length := by
  obtain ⟨c', hc', hn⟩ := h
  exact D.congr c' c w.length hn fun k hk => by rw [hc k hk, hc' k hk]

theorem Word.ne_nil (h : D.Word w) : w ≠ [] := by
  obtain ⟨c, -, hn⟩ := h
  exact List.length_pos_iff.1 (D.pos c _ hn)

/-- No word begins another one, so a text is cut into words in one way. -/
theorem uniquelyDecodable (D : Delimited α) :
    InformationTheory.UniquelyDecodable {w | D.Word w} := by
  intro l₁ l₂ h₁ h₂ heq
  induction l₁ generalizing l₂ with
  | nil =>
    cases l₂ with
    | nil => rfl
    | cons w l₂ =>
      have hnil := (List.append_eq_nil_iff.1 heq.symm).1
      exact absurd hnil (h₂ w List.mem_cons_self).ne_nil
  | cons w l₁ ih =>
    obtain ⟨hw, h₁⟩ := List.forall_mem_cons.1 h₁
    cases l₂ with
    | nil => exact absurd (List.append_eq_nil_iff.1 heq).1 (Word.ne_nil hw)
    | cons w' l₂ =>
      obtain ⟨hw', hrest⟩ := List.forall_mem_cons.1 h₂
      rw [List.flatten_cons, List.flatten_cons] at heq
      obtain ⟨c, hc⟩ :=
        exists_begins (List.append_ne_nil_of_left_ne_nil (Word.ne_nil hw) l₁.flatten)
      have hlen := Word.next hw (begins_append.1 hc).1
      rw [Word.next hw' (begins_append.1 (heq ▸ hc)).1, Option.some.injEq] at hlen
      obtain ⟨rfl, htail⟩ := List.append_inj heq hlen.symm
      rw [ih l₂ h₁ hrest htail]

end Delimited

end Misc.Lib
