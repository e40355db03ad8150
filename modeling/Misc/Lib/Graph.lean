import Mathlib.Logic.Relation
import Mathlib.Data.List.Nodup
import Mathlib.Data.List.Perm.Basic

namespace Misc.Lib.Graph
set_option autoImplicit true

variable {V : Type} {succ : V → List V} {a b c : V} {C : List V}

abbrev Reach (succ : V → List V) : V → V → Prop := Relation.ReflTransGen fun a b => b ∈ succ a

/-- The two vertices lie in one strongly connected component. -/
def SameScc (succ : V → List V) (a b : V) : Prop := Reach succ a b ∧ Reach succ b a

theorem Reach.edge (h : b ∈ succ a) : Reach succ a b := .single h

theorem SameScc.refl (a : V) : SameScc succ a a := ⟨.refl, .refl⟩

theorem SameScc.symm (h : SameScc succ a b) : SameScc succ b a := ⟨h.2, h.1⟩

theorem SameScc.trans (hab : SameScc succ a b) (hbc : SameScc succ b c) : SameScc succ a c :=
  ⟨hab.1.trans hbc.1, hbc.2.trans hab.2⟩

/-- The vertices of `C` are one strongly connected component. -/
def IsScc (succ : V → List V) (C : List V) : Prop := ∃ v, ∀ u, u ∈ C ↔ SameScc succ v u

theorem IsScc.sameScc (h : IsScc succ C) (ha : a ∈ C) : b ∈ C ↔ SameScc succ a b := by
  obtain ⟨v, hv⟩ := h
  have hva := (hv a).1 ha
  rw [hv b]
  exact ⟨hva.symm.trans, hva.trans⟩

def Closed (succ : V → List V) (S : V → Prop) : Prop := ∀ a b, S a → b ∈ succ a → S b

theorem Closed.reach {S : V → Prop} (h : Closed succ S) (ha : S a)
    (hr : Reach succ a b) : S b := by
  induction hr with
  | refl => exact ha
  | tail _ hbc ih => exact h _ _ ih hbc

section
variable {E : V → V → Prop} {S : V → Prop} {rank : V → Nat}

theorem descends (hclosed : ∀ a b, S a → E a b → S b)
    (hlt : ∀ a b, S a → E a b → rank b < rank a)
    (ha : S a) (h : Relation.TransGen E a b) : S b ∧ rank b < rank a := by
  induction h with
  | single hab => exact ⟨hclosed _ _ ha hab, hlt _ _ ha hab⟩
  | tail _ hbc ih => exact ⟨hclosed _ _ ih.1 hbc, Nat.lt_trans (hlt _ _ ih.1 hbc) ih.2⟩

/-- If edges descend, and of any two vertices one has an edge that does not descend below the
other, then there is a path between any two vertices. -/
theorem connected (hclosed : ∀ a b, S a → E a b → S b)
    (hlt : ∀ a b, S a → E a b → rank b < rank a)
    (hedge : ∀ a b, S a → S b → a ≠ b →
      (∃ w, E b w ∧ rank a ≤ rank w) ∨ ∃ w, E a w ∧ rank b ≤ rank w)
    (ha : S a) (hb : S b) (hne : a ≠ b) : Relation.TransGen E a b ∨ Relation.TransGen E b a := by
  generalize hn : rank a + rank b = n
  induction n using Nat.strongRecOn generalizing a b with
  | ind n ih =>
    subst hn
    have hpath {a b w : V} (ha : S a) (hb : S b) (hw : E b w) (hle : rank a ≤ rank w)
        (ih : a ≠ w → Relation.TransGen E a w ∨ Relation.TransGen E w a) :
        Relation.TransGen E b a := by
      by_cases he : a = w
      · exact .single (he ▸ hw)
      · rcases ih he with haw | hwa
        · exact absurd (descends hclosed hlt ha haw).2 (Nat.not_lt.2 hle)
        · exact .head hw hwa
    rcases hedge a b ha hb hne with ⟨w, hw, hle⟩ | ⟨w, hw, hle⟩
    · have hless := hlt b w hb hw
      exact .inr (hpath ha hb hw hle fun he => ih _ (by omega) ha (hclosed b w hb hw) he rfl)
    · have hless := hlt a w ha hw
      exact .inl (hpath hb ha hw hle fun he => ih _ (by omega) hb (hclosed a w ha hw) he rfl)

end

/-- Strongly connected components, each after the components that its edges lead to. -/
inductive DepsFirst (succ : V → List V) : List (List V) → Prop
  | nil : DepsFirst succ []
  | snoc {res : List (List V)} {C : List V} : DepsFirst succ res → IsScc succ C → C.Nodup →
      (∀ u ∈ C, u ∉ res.flatten) → (∀ u ∈ C, ∀ w ∈ succ u, w ∈ res.flatten ∨ w ∈ C) →
      DepsFirst succ (res ++ [C])

namespace DepsFirst

variable {res : List (List V)}

theorem closed (h : DepsFirst succ res) : Closed succ (· ∈ res.flatten) := by
  induction h with
  | nil =>
    intro a b ha
    cases ha
  | @snoc res C _ _ _ _ hC ih =>
    intro a b ha hb
    rw [List.flatten_append, List.flatten_singleton, List.mem_append] at ha ⊢
    rcases ha with ha | ha
    · exact .inl (ih a b ha hb)
    · exact hC a ha b hb

theorem nodup (h : DepsFirst succ res) : res.flatten.Nodup := by
  induction h with
  | nil => exact List.nodup_nil
  | snoc _ _ hnd hdisj _ ih =>
    rw [List.flatten_append, List.flatten_singleton, List.nodup_append]
    refine ⟨ih, hnd, ?_⟩
    intro a ha b hb heq
    subst heq
    exact hdisj a hb ha

theorem not_reach (h : DepsFirst succ res) :
    res.Pairwise fun A B => ∀ a ∈ A, ∀ b ∈ B, ¬ Reach succ a b := by
  induction h with
  | nil => exact .nil
  | snoc hres _ _ hdisj _ ih =>
    refine List.pairwise_append.2 ⟨ih, List.pairwise_singleton .., ?_⟩
    intro A hA B hB a ha b hb hr
    cases List.mem_singleton.1 hB
    exact hdisj b hb (hres.closed.reach (List.mem_flatten.2 ⟨A, hA, ha⟩) hr)

theorem isScc (h : DepsFirst succ res) (hC : C ∈ res) : IsScc succ C := by
  induction h with
  | nil => cases hC
  | snoc _ hscc _ _ _ ih =>
    rcases List.mem_append.1 hC with hC | hC
    · exact ih hC
    · rw [List.mem_singleton.1 hC]
      exact hscc

theorem before (h : DepsFirst succ res) (ha : a ∈ res.flatten) (hb : b ∈ succ a)
    (hne : ¬ SameScc succ a b) : [b, a].Sublist res.flatten := by
  induction h with
  | nil => cases ha
  | @snoc res C hres hscc _ _ hC ih =>
    rw [List.flatten_append, List.flatten_singleton] at ha ⊢
    rcases List.mem_append.1 ha with ha | ha
    · exact (ih ha).trans (List.sublist_append_left ..)
    · rcases hC a ha b hb with hb' | hb'
      · exact (List.singleton_sublist.2 hb').append (List.singleton_sublist.2 ha)
      · exact absurd ((hscc.sameScc ha).1 hb') hne

theorem before_reach (h : DepsFirst succ res) (ha : a ∈ res.flatten) (hr : Reach succ a b)
    (hne : ¬ SameScc succ a b) : [b, a].Sublist res.flatten := by
  induction h with
  | nil => cases ha
  | @snoc res C hres hscc hnd hdisj hC ih =>
    have hb := (hres.snoc hscc hnd hdisj hC).closed.reach ha hr
    rw [List.flatten_append, List.flatten_singleton] at ha hb ⊢
    rcases List.mem_append.1 ha with ha | ha
    · exact (ih ha).trans (List.sublist_append_left ..)
    · rcases List.mem_append.1 hb with hb | hb
      · exact (List.singleton_sublist.2 hb).append (List.singleton_sublist.2 ha)
      · exact absurd ((hscc.sameScc ha).1 hb) hne

theorem pairwise {R : V → V → Prop} (h : DepsFirst succ res) (hR : ∀ C ∈ res, C.Pairwise R) :
    res.flatten.Pairwise fun a b => SameScc succ a b → R a b := by
  induction h with
  | nil => exact .nil
  | @snoc res C hres _ _ hdisj _ ih =>
    rw [List.flatten_append, List.flatten_singleton, List.pairwise_append]
    refine ⟨ih fun D hD => hR D (List.mem_append_left _ hD), ?_, ?_⟩
    · apply (hR C (List.mem_append_right _ (List.mem_singleton_self _))).imp
      intro a b hab _
      exact hab
    · intro a ha b hb hab
      exact absurd (hres.closed.reach ha hab.1) (hdisj b hb)

/-- The order inside the components does not matter. -/
theorem perm {blocks : List (List V)} (h : DepsFirst succ res)
    (hperm : List.Forall₂ List.Perm blocks res) : DepsFirst succ blocks := by
  induction h generalizing blocks with
  | nil =>
    cases hperm
    exact .nil
  | @snoc res C hres hscc hnd hdisj hC ih =>
    have hrev := List.forall₂_reverse_iff.2 hperm
    rw [List.reverse_append, List.reverse_singleton, List.singleton_append] at hrev
    generalize hb : blocks.reverse = rblocks at hrev
    cases hrev with
    | @cons B _ rest _ hBC hrest =>
      have hblocks : blocks = rest.reverse ++ [B] := by
        rw [← List.reverse_cons, ← hb, List.reverse_reverse]
      have hrest' : List.Forall₂ List.Perm rest.reverse res := by
        rwa [← List.forall₂_reverse_iff, List.reverse_reverse]
      have hflat := List.Perm.flatten_congr hrest'
      rw [hblocks]
      refine (ih hrest').snoc ?_ (hBC.nodup_iff.2 hnd) ?_ ?_
      · obtain ⟨v, hv⟩ := hscc
        exact ⟨v, fun u => (hBC.mem_iff).trans (hv u)⟩
      · intro u hu hm
        exact hdisj u (hBC.mem_iff.1 hu) (hflat.mem_iff.1 hm)
      · intro u hu w hw
        exact (hC u (hBC.mem_iff.1 hu) w hw).imp hflat.mem_iff.2 hBC.mem_iff.2

end DepsFirst

/-- What holds between the vertices of two components does not depend on the order inside
them. -/
theorem pairwise_blocks {R : V → V → Prop} {blocks res : List (List V)}
    (hperm : List.Forall₂ List.Perm blocks res)
    (h : res.Pairwise fun A B => ∀ a ∈ A, ∀ b ∈ B, R a b) :
    blocks.Pairwise fun A B => ∀ a ∈ A, ∀ b ∈ B, R a b := by
  induction hperm with
  | nil => exact .nil
  | @cons A C As Cs hA hAs ih =>
    have hmem : ∀ B ∈ As, ∃ D ∈ Cs, B.Perm D := by
      clear ih h
      induction hAs with
      | nil => exact nofun
      | cons hB _ ih => exact List.forall_mem_cons.2 ⟨⟨_, List.mem_cons_self, hB⟩, fun B hB =>
          (ih B hB).imp fun _ hD => ⟨List.mem_cons_of_mem _ hD.1, hD.2⟩⟩
    rw [List.pairwise_cons] at h ⊢
    refine ⟨?_, ih h.2⟩
    intro B hB a ha b hb
    obtain ⟨D, hD, hBD⟩ := hmem B hB
    exact h.1 D hD a (hA.mem_iff.1 ha) b (hBD.mem_iff.1 hb)

theorem not_sublist_swap {l : List V} (h : l.Nodup) (hab : [a, b].Sublist l)
    (hba : [b, a].Sublist l) : False := by
  induction l with
  | nil => cases hab
  | cons x l ih =>
    rw [List.nodup_cons] at h
    cases hab with
    | cons _ hab =>
      cases hba with
      | cons _ hba => exact ih h.2 hab hba
      | cons_cons _ hba => exact h.1 (hab.subset (by simp))
    | cons_cons _ hab =>
      cases hba with
      | cons _ hba => exact h.1 (hba.subset (by simp))
      | cons_cons _ hba => exact h.1 (List.singleton_sublist.1 hab)

theorem sublist_or_swap {l : List V} (ha : a ∈ l) (hb : b ∈ l) (hne : a ≠ b) :
    [a, b].Sublist l ∨ [b, a].Sublist l := by
  induction l with
  | nil => cases ha
  | cons x l ih =>
    rcases List.mem_cons.1 ha with rfl | ha'
    · rcases List.mem_cons.1 hb with rfl | hb'
      · exact absurd rfl hne
      · exact .inl ((List.singleton_sublist.2 hb').cons_cons a)
    · rcases List.mem_cons.1 hb with rfl | hb'
      · exact .inr ((List.singleton_sublist.2 ha').cons_cons b)
      · exact (ih ha' hb').imp (·.cons x) (·.cons x)

theorem length_filter_lt {p q : V → Bool} {l : List V} (hpq : ∀ u, q u = true → p u = true)
    (ha : a ∈ l) (hp : p a = true) (hq : q a = false) :
    (l.filter q).length < (l.filter p).length := by
  have hsub : l.filter q = (l.filter p).filter q := by
    rw [List.filter_filter]
    apply List.filter_congr
    intro u _
    cases hu : q u with
    | false => rfl
    | true => rw [hpq u hu]; rfl
  rw [hsub, List.length_filter_lt_length_iff_exists]
  exact ⟨a, List.mem_filter.2 ⟨ha, hp⟩, by rw [hq]; exact Bool.false_ne_true⟩

end Misc.Lib.Graph
