import Mathlib.Data.List.Nodup

namespace Misc.Lib
set_option autoImplicit true

/-- The nodes of a linked list. `next` gives the successor of a node of the memory. -/
inductive Linked (next : α → Option (Option α)) : Option α → List α → Prop
  | nil : Linked next none []
  | cons : next a = some b → Linked next b l → Linked next (some a) (a :: l)

namespace Linked

variable {next next' : α → Option (Option α)}

theorem front_none (h : Linked next none l) : l = [] := by
  cases h
  rfl

theorem front_some (h : Linked next (some a) l) :
    ∃ b l', l = a :: l' ∧ next a = some b ∧ Linked next b l' := by
  cases h with
  | cons ha h => exact ⟨_, _, rfl, ha, h⟩

theorem congr (h : Linked next f l) (hn : ∀ a ∈ l, next' a = next a) : Linked next' f l := by
  induction h with
  | nil => exact .nil
  | cons ha _ ih =>
    apply Linked.cons ((hn _ List.mem_cons_self).trans ha)
    exact ih fun a ha => hn a (List.mem_cons_of_mem _ ha)

theorem push (h : Linked next f (l ++ [r])) (hn : ∀ a ∈ l, next' a = next a)
    (hr : next' r = some (some a)) (ha : next' a = some none) :
    Linked next' f (l ++ [r, a]) := by
  induction l generalizing f with
  | nil =>
    cases h
    exact .cons hr (.cons ha .nil)
  | cons x l ih =>
    cases h with
    | cons hx h =>
      apply Linked.cons ((hn x List.mem_cons_self).trans hx)
      exact ih h fun a ha => hn a (List.mem_cons_of_mem _ ha)

theorem unique (h : Linked next f l) (h' : Linked next f l') : l = l' := by
  induction h generalizing l' with
  | nil => exact h'.front_none.symm
  | cons ha _ ih =>
    obtain ⟨b', t, rfl, ha', h'⟩ := h'.front_some
    cases ha.symm.trans ha'
    rw [ih h']

theorem suffix (h : Linked next f (l ++ a :: t)) : Linked next (some a) (a :: t) := by
  induction l generalizing f with
  | nil =>
    cases h with
    | cons ha h => exact .cons ha h
  | cons b l ih =>
    cases h with
    | cons _ h => exact ih h

theorem nodup (h : Linked next f l) : l.Nodup := by
  induction h with
  | nil => exact List.nodup_nil
  | @cons a b l ha h ih =>
    refine List.nodup_cons.2 ⟨fun hmem => ?_, ih⟩
    obtain ⟨s, t, rfl⟩ := List.append_of_mem hmem
    have hlen := congrArg List.length ((Linked.cons ha h).unique h.suffix)
    rw [List.length_cons, List.length_append, List.length_cons] at hlen
    omega

end Linked

/-- The nodes met on the way along a list, which may have a cycle. -/
inductive Reaches (next : α → Option (Option α)) : Option α → α → Prop
  | here : Reaches next (some a) a
  | there : next a = some f → Reaches next f b → Reaches next (some a) b

theorem Linked.mem_iff {next : α → Option (Option α)} (h : Linked next f l) :
    a ∈ l ↔ Reaches next f a := by
  induction h with
  | nil => exact iff_of_false List.not_mem_nil nofun
  | @cons b c l hb _ ih =>
    rw [List.mem_cons, ih]
    constructor
    · rintro (rfl | hr)
      · exact .here
      · exact .there hb hr
    · intro hr
      cases hr with
      | here => exact Or.inl rfl
      | there hb' hr =>
        cases hb.symm.trans hb'
        exact Or.inr hr

theorem Linked.push_front_iff {next next' : α → Option (Option α)} (h : Linked next f l)
    (hn : ∀ b, b ≠ a → next' b = next b) (ha : next' a = some f) :
    (∃ l', Linked next' (some a) l') ↔ ¬ Reaches next f a := by
  constructor
  · rintro ⟨l', h'⟩ hr
    have hr' : Reaches next' f a := by
      clear h ha h'
      induction hr with
      | here => exact .here
      | @there b g c hb _ ih =>
        by_cases hbc : b = c
        · rw [hbc]
          exact .here
        · exact .there ((hn b hbc).trans hb) (ih hn)
    obtain ⟨g, t, rfl, hg, ht⟩ := h'.front_some
    cases ha.symm.trans hg
    exact (List.nodup_cons.1 h'.nodup).1 (ht.mem_iff.2 hr')
  · intro hr
    refine ⟨a :: l, .cons ha (h.congr fun b hb => hn b ?_)⟩
    rintro rfl
    exact hr (h.mem_iff.1 hb)

end Misc.Lib
