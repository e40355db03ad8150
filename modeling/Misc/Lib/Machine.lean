import Mathlib.Logic.Basic

namespace Misc.Lib
set_option autoImplicit true

/-- A machine moves by named actions; `none` means that the action is not enabled. -/
structure Machine (σ : Type) (α : Type) where
  init : σ → Prop
  step : σ → α → Option σ

namespace Machine

variable {σ α ε γ : Type} {M : Machine σ α}

/-- Executes a list of actions. -/
def exec (M : Machine σ α) (s : σ) : List α → Option σ
  | [] => some s
  | a :: as => (M.step s a).bind fun t => M.exec t as

/-- A run whose every action satisfies `ok` in the state in which it is taken. -/
inductive RunIf (M : Machine σ α) (ok : σ → α → Prop) : σ → List α → σ → Prop
  | nil (s : σ) : RunIf M ok s [] s
  | cons : ok s a → M.step s a = some t → RunIf M ok t as u → RunIf M ok s (a :: as) u

abbrev Run (M : Machine σ α) : σ → List α → σ → Prop := M.RunIf fun _ _ => True

/-- The states reached from an initial one by steps that all satisfy `ok`. -/
def ReachIf (M : Machine σ α) (ok : σ → α → Prop) (t : σ) : Prop :=
  ∃ s as, M.init s ∧ M.RunIf ok s as t

abbrev Reach (M : Machine σ α) : σ → Prop := M.ReachIf fun _ _ => True

theorem RunIf.mono {ok ok' : σ → α → Prop} (h : M.RunIf ok s as t)
    (hok : ∀ s a, ok s a → ok' s a) : M.RunIf ok' s as t := by
  induction h with
  | nil s => exact .nil s
  | cons ha hs _ ih => exact .cons (hok _ _ ha) hs ih

theorem RunIf.of_exec (h : M.exec s as = some t) : M.Run s as t := by
  induction as generalizing s with
  | nil =>
    cases h
    exact .nil _
  | cons a as ih =>
    obtain ⟨u, hu, h⟩ := Option.bind_eq_some_iff.1 h
    exact .cons trivial hu (ih h)

/-- Executes a list of actions as long as each satisfies `ok`. -/
def execIf (M : Machine σ α) (ok : σ → α → Prop) [∀ s a, Decidable (ok s a)] (s : σ) :
    List α → Option σ
  | [] => some s
  | a :: as => if ok s a then (M.step s a).bind fun t => M.execIf ok t as else none

theorem RunIf.of_execIf {ok : σ → α → Prop} [∀ s a, Decidable (ok s a)]
    (h : M.execIf ok s as = some t) : M.RunIf ok s as t := by
  induction as generalizing s with
  | nil =>
    cases h
    exact .nil _
  | cons a as ih =>
    simp only [execIf, Option.ite_none_right_eq_some] at h
    obtain ⟨ha, h⟩ := h
    obtain ⟨u, hu, h⟩ := Option.bind_eq_some_iff.1 h
    exact .cons ha hu (ih h)

theorem Reach.of_exec (hs : M.init s) (h : M.exec s as = some t) : M.Reach t :=
  ⟨s, as, hs, .of_exec h⟩

theorem RunIf.append {ok : σ → α → Prop} (h : M.RunIf ok s as t) (h' : M.RunIf ok t bs u) :
    M.RunIf ok s (as ++ bs) u := by
  induction h with
  | nil => exact h'
  | cons ha hs _ ih => exact .cons ha hs (ih h')

/-- What every step keeps, every run keeps. -/
theorem RunIf.invariant {ok : σ → α → Prop} {I : σ → Prop} (h : M.RunIf ok s as t) (hs : I s)
    (hstep : ∀ s a t, I s → ok s a → M.step s a = some t → I t) : I t := by
  induction h with
  | nil => exact hs
  | cons ha hst _ ih => exact ih (hstep _ _ _ hs ha hst)

/-- What holds initially and is kept by every step holds in every state reached. -/
theorem ReachIf.invariant {ok : σ → α → Prop} {I : σ → Prop} (h : M.ReachIf ok t)
    (hinit : ∀ s, M.init s → I s)
    (hstep : ∀ s a t, I s → ok s a → M.step s a = some t → I t) : I t := by
  obtain ⟨s, as, hs, hr⟩ := h
  exact hr.invariant (hinit s hs) hstep

/-- What relates the actions taken so far to the state reached, and is kept by every step,
relates a run to its last state. -/
theorem RunIf.history {ok : σ → α → Prop} {I : List α → σ → Prop}
    (h : M.RunIf ok s as t) (hs : I pre s)
    (hstep : ∀ pre s a t, I pre s → ok s a → M.step s a = some t → I (pre ++ [a]) t) :
    I (pre ++ as) t := by
  induction h generalizing pre with
  | nil =>
    rw [List.append_nil]
    exact hs
  | cons ha hst _ ih =>
    rw [List.append_cons]
    exact ih (hstep _ _ _ _ hs ha hst)

theorem RunIf.split {ok : σ → α → Prop} (h : M.RunIf ok s (as ++ bs) t) :
    ∃ u, M.RunIf ok s as u ∧ M.RunIf ok u bs t := by
  induction as generalizing s with
  | nil => exact ⟨s, .nil s, h⟩
  | cons a as ih =>
    cases h with
    | cons ha hs h =>
      obtain ⟨u, hu, h⟩ := ih h
      exact ⟨u, .cons ha hs hu, h⟩

theorem RunIf.unique {ok ok' : σ → α → Prop} (h : M.RunIf ok s as t) (h' : M.RunIf ok' s as t') :
    t = t' := by
  induction h with
  | nil =>
    cases h'
    rfl
  | cons _ hs _ ih =>
    cases h' with
    | cons _ hs' h' =>
      cases hs.symm.trans hs'
      exact ih h'

/-- If each step leads to a state with `P` if and only if it satisfies `ok`, so do all the steps
of a run and the states it passes through. -/
theorem RunIf.forall_iff {ok lim : σ → α → Prop} {P : σ → Prop}
    (h : M.RunIf lim s as t) (hs : P s)
    (hstep : ∀ s a t, lim s a → M.step s a = some t → (P t ↔ ok s a)) :
    (∀ bs u, bs <+: as → M.Run s bs u → P u) ↔ M.RunIf ok s as t := by
  induction h with
  | nil s =>
    refine iff_of_true (fun bs u hbs hr => ?_) (.nil s)
    cases List.prefix_nil.1 hbs
    cases hr
    exact hs
  | @cons s a t as u ha hst _ ih =>
    constructor
    · intro hall
      have ht := hall [a] t (List.prefix_append [a] as) (.cons trivial hst (.nil t))
      refine .cons ((hstep s a t ha hst).1 ht) hst ((ih ht).1 fun bs v hbs hr => ?_)
      exact hall (a :: bs) v (List.cons_prefix_cons.2 ⟨rfl, hbs⟩) (.cons trivial hst hr)
    · intro hok bs v hbs hr
      cases hok with
      | cons ha' hst' hok =>
        cases hst.symm.trans hst'
        cases hr with
        | nil => exact hs
        | cons _ hst₂ hrest =>
          obtain ⟨rfl, htail⟩ := List.cons_prefix_cons.1 hbs
          cases hst.symm.trans hst₂
          exact (ih ((hstep _ _ _ ha hst).2 ha')).2 hok _ v htail hrest

/-- The events that a list of actions shows to an observer. -/
def observe (M : Machine σ α) (ev : σ → α → Option ε) (s : σ) : List α → List ε
  | [] => []
  | a :: as => (ev s a).toList ++
    match M.step s a with
    | some t => M.observe ev t as
    | none => []

/-- A monitor follows the events of a run. If `I` relates the states to the monitor's own state
and every event shown is good for the monitor at that moment, every event of a run is. -/
theorem RunIf.monitor {ok : σ → α → Prop} {ev : σ → α → Option ε} {mon : γ → ε → γ}
    {I : σ → γ → Prop} {good : γ → ε → Prop} (h : M.RunIf ok s as t) (hs : I s g)
    (hstep : ∀ s a t g, I s g → ok s a → M.step s a = some t →
      I t ((ev s a).toList.foldl mon g))
    (hgood : ∀ s a g e, I s g → ev s a = some e → good g e)
    (he : M.observe ev s as = pre ++ e :: post) : good (pre.foldl mon g) e := by
  induction h generalizing g pre with
  | nil => simp [observe] at he
  | @cons s a t as u ha hst _ ih =>
    have hI := hstep s a t g hs ha hst
    simp only [observe, hst] at he
    cases hev : ev s a with
    | none =>
      rw [hev] at he hI
      exact ih hI he
    | some e' =>
      rw [hev] at he hI
      cases pre with
      | nil =>
        simp only [Option.toList_some, List.cons_append, List.nil_append,
          List.cons.injEq] at he
        exact he.1 ▸ hgood s a g e' hs hev
      | cons f pre =>
        simp only [Option.toList_some, List.cons_append, List.nil_append,
          List.cons.injEq] at he
        rw [← he.1, List.foldl_cons]
        exact ih hI he.2

/-- A monitor that may reject events accepts those of every run if each step lets it go on in a
state that `I` relates to the state reached. -/
theorem RunIf.accepts {ok : σ → α → Prop} {ev : σ → α → Option ε} {mon : γ → ε → Option γ}
    {I : σ → γ → Prop} (h : M.RunIf ok s as t) (hs : I s g)
    (hstep : ∀ s a t g, I s g → ok s a → M.step s a = some t →
      ∃ g', (ev s a).toList.foldlM mon g = some g' ∧ I t g') :
    ∃ g', (M.observe ev s as).foldlM mon g = some g' ∧ I t g' := by
  induction h generalizing g with
  | nil => exact ⟨g, rfl, hs⟩
  | @cons s a t as u ha hst _ ih =>
    obtain ⟨g₁, hg₁, hI⟩ := hstep s a t g hs ha hst
    obtain ⟨g₂, hg₂, hI'⟩ := ih hI
    refine ⟨g₂, ?_, hI'⟩
    simp only [observe, hst, List.foldlM_append, hg₁]
    exact hg₂

/-- What comes in over a run is what goes out and what is left, if that is so of each step. -/
theorem RunIf.conserves {β : Type} {ok : σ → α → Prop} (inp out : σ → α → Option (List β))
    (rest : σ → List β) {I : σ → Prop} (h : M.RunIf ok s as t) (hs : I s)
    (hstep : ∀ s a t, I s → ok s a → M.step s a = some t →
      I t ∧ (out s a).toList.flatten ++ rest t = rest s ++ (inp s a).toList.flatten) :
    I t ∧ (M.observe out s as).flatten ++ rest t = rest s ++ (M.observe inp s as).flatten := by
  induction h with
  | nil => exact ⟨hs, by simp [observe]⟩
  | @cons s a t as u ha hst _ ih =>
    obtain ⟨ht, heq⟩ := hstep s a t hs ha hst
    obtain ⟨hu, hrec⟩ := ih ht
    refine ⟨hu, ?_⟩
    simp only [observe, hst, List.flatten_append]
    rw [List.append_assoc, hrec, ← List.append_assoc, heq, List.append_assoc]

end Machine

end Misc.Lib
