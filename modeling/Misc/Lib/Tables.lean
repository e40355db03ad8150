import Mathlib.Data.Option.Basic
import Mathlib.Logic.Function.Basic

namespace Misc.Lib
set_option autoImplicit true

section
variable {ι κ : Type} [DecidableEq ι] {f : ι → Option κ} {a b : ι} {x y : κ}

theorem update_some_iff : Function.update f a (some x) b = some y ↔
      b = a ∧ y = x ∨ b ≠ a ∧ f b = some y := by
  by_cases h : b = a <;> simp [h, eq_comm]

theorem update_none_iff : Function.update f a none b = some y ↔ b ≠ a ∧ f b = some y := by
  by_cases h : b = a <;> simp [h]

/-- Different entries of the table hold different values. -/
def Apart (f : ι → Option κ) : Prop := ∀ a b x, f a = some x → f b = some x → a = b

theorem Apart.insert (h : Apart f) (hx : ∀ a, f a ≠ some x) :
    Apart (Function.update f a (some x)) := by
  intro b c y hb hc
  obtain ⟨hba, hyx⟩ | ⟨-, hb⟩ := update_some_iff.1 hb
  · obtain ⟨hca, -⟩ | ⟨-, hc⟩ := update_some_iff.1 hc
    · exact hba.trans hca.symm
    · exact absurd (hyx ▸ hc) (hx c)
  · obtain ⟨-, hyx⟩ | ⟨-, hc⟩ := update_some_iff.1 hc
    · exact absurd (hyx ▸ hb) (hx b)
    · exact h b c y hb hc

theorem Apart.remove (h : Apart f) : Apart (Function.update f a none) := fun b c y hb hc =>
  h b c y (update_none_iff.1 hb).2 (update_none_iff.1 hc).2

theorem exists_update_some (ha : f a = none) : (∃ b, Function.update f a (some x) b = some y) ↔
      y = x ∨ ∃ b, f b = some y := by
  refine ⟨fun ⟨b, hb⟩ => (update_some_iff.1 hb).imp And.right fun hb => ⟨b, hb.2⟩, ?_⟩
  rintro (rfl | ⟨b, hb⟩)
  · exact ⟨a, Function.update_self ..⟩
  · refine ⟨b, update_some_iff.2 (.inr ⟨?_, hb⟩)⟩
    rintro rfl
    rw [ha] at hb
    cases hb

theorem Apart.remove_iff (h : Apart f) (ha : f a = some x) :
    Function.update f a none b = some y ↔ y ≠ x ∧ f b = some y := by
  rw [update_none_iff]
  refine and_congr_left fun hb => not_congr ⟨?_, ?_⟩
  · rintro rfl
    exact Option.some.inj (hb.symm.trans ha)
  · rintro rfl
    exact h b a y hb ha

theorem Apart.exists_remove (h : Apart f) (ha : f a = some x) :
    (∃ b, Function.update f a none b = some y) ↔ y ≠ x ∧ ∃ b, f b = some y := by
  simp only [h.remove_iff ha, exists_and_left]

end

end Misc.Lib
