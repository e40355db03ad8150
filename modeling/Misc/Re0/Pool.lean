import Misc.Re0.Fragment

namespace Misc.Re0
open Misc.Lib.Paths
set_option autoImplicit true

/-- Automata for these languages, which share no state; `T` are their states. -/
inductive Parts (h : Heap) : List NFA → List (Language UInt8) → Set Addr → Prop
  | nil : Parts h [] [] ∅
  | cons : Frag h a S L → Parts h st Ls T → Disjoint S T → Parts h (a :: st) (L :: Ls) (S ∪ T)

/-- The automata that are left, with their languages, after some of the operations; each has
been made from automata that were left before. -/
inductive Pool : Heap → List (NFA × Language UInt8) → Prop
  | empty : Pool .empty []
  | e : Pool h fs → Pool (nfaE h).2 (((nfaE h).1, 1) :: fs)
  | char (c : UInt8) : Pool h fs → Pool (nfaChar c h).2 (((nfaChar c h).1, {[c]}) :: fs)
  | cat : Pool h ((b, K) :: (a, L) :: fs) →
      Pool (nfaCat a b h).2 (((nfaCat a b h).1, L * K) :: fs)
  | or : Pool h ((b, K) :: (a, L) :: fs) → Pool (nfaOr a b h).2 (((nfaOr a b h).1, L + K) :: fs)
  | star : Pool h ((a, L) :: fs) → Pool (nfaStar a h).2 (((nfaStar a h).1, KStar.kstar L) :: fs)
  | perm : Pool h fs → fs.Perm fs' → Pool h fs'

variable {h h' : Heap} {a b : NFA} {st : List NFA} {L K : Language UInt8}
  {Ls : List (Language UInt8)}
  {T : Set Addr}

theorem nfaE_state (h : Heap) {s : Addr} (hs : s < h.size) : (nfaE h).2.state s = h.state s := by
  have h₀ : s ≠ h.size := Nat.ne_of_lt hs
  have h₁ : s ≠ h.size + 1 := Nat.ne_of_lt (Nat.lt_succ_of_lt hs)
  change (h.fresh.2.addE h.size (h.size + 1)).state s = _
  rw [Heap.addE, Heap.state_set, if_neg h₀, Heap.state_fresh, if_neg (not_or_intro h₀ h₁)]

theorem nfaChar_state (c : UInt8) (h : Heap) {s : Addr} (hs : s < h.size) :
    (nfaChar c h).2.state s = h.state s := by
  have h₀ : s ≠ h.size := Nat.ne_of_lt hs
  have h₁ : s ≠ h.size + 1 := Nat.ne_of_lt (Nat.lt_succ_of_lt hs)
  change (h.fresh.2.addChar h.size c (h.size + 1)).state s = _
  rw [Heap.addChar, Heap.state_set, if_neg h₀, Heap.state_fresh, if_neg (not_or_intro h₀ h₁)]

theorem nfaCat_state (a b : NFA) (h : Heap) {s : Addr} (hs : s ≠ a.End) :
    (nfaCat a b h).2.state s = h.state s := by
  rw [nfaCat, Heap.state_set, if_neg hs]

theorem nfaOr_state (a b : NFA) (h : Heap) {s : Addr} (hs : s < h.size) (ha : s ≠ a.End)
    (hb : s ≠ b.End) : (nfaOr a b h).2.state s = h.state s := by
  have h₀ : s ≠ h.size := Nat.ne_of_lt hs
  have h₁ : s ≠ h.size + 1 := Nat.ne_of_lt (Nat.lt_succ_of_lt hs)
  change ((((h.fresh.2.addE h.size a.Start).addE a.End (h.size + 1)).addE h.size b.Start).addE
    b.End (h.size + 1)).state s = _
  simp only [Heap.addE, Heap.state_set, if_neg h₀, if_neg ha, if_neg hb, Heap.state_fresh,
    if_neg (not_or_intro h₀ h₁)]

theorem nfaStar_state (a : NFA) (h : Heap) {s : Addr} (hs : s < h.size) (ha : s ≠ a.End) :
    (nfaStar a h).2.state s = h.state s := by
  have h₀ : s ≠ h.size := Nat.ne_of_lt hs
  have h₁ : s ≠ h.size + 1 := Nat.ne_of_lt (Nat.lt_succ_of_lt hs)
  change ((((h.fresh.2.addE h.size a.Start).addE h.size (h.size + 1)).addE
    a.End (h.size + 1)).addE a.End a.Start).state s = _
  simp only [Heap.addE, Heap.state_set, if_neg h₀, if_neg ha, Heap.state_fresh,
    if_neg (not_or_intro h₀ h₁)]

namespace Parts

theorem alloc (hst : Parts h st Ls T) : ∀ s ∈ T, s < h.size := by
  induction hst with
  | nil => exact fun s hs => absurd hs (Set.notMem_empty s)
  | cons ha _ _ ih => exact fun s hs => hs.elim (ha.alloc s) (ih s)

theorem frame (hst : Parts h st Ls T) (hsize : h.size ≤ h'.size)
    (heq : ∀ s ∈ T, h'.state s = h.state s) : Parts h' st Ls T := by
  induction hst with
  | nil => exact .nil
  | cons ha hrest hd ih =>
    exact .cons (ha.frame hsize fun s hs => heq s (.inl hs)) (ih fun s hs => heq s (.inr hs)) hd

theorem disjoint_fresh (hst : Parts h st Ls T) : Disjoint {h.size, h.size + 1} T := by
  rw [Set.disjoint_left]
  rintro s (rfl | rfl) hs
  · exact Nat.lt_irrefl _ (hst.alloc _ hs)
  · exact Nat.not_succ_lt_self (hst.alloc _ hs)

theorem e (hst : Parts h st Ls T) :
    Parts (nfaE h).2 ((nfaE h).1 :: st) (1 :: Ls) ({h.size, h.size + 1} ∪ T) :=
  .cons (.e h) (hst.frame (Nat.le_add_right _ 2) fun s hs => nfaE_state h (hst.alloc s hs))
    hst.disjoint_fresh

theorem char (hst : Parts h st Ls T) (c : UInt8) :
    Parts (nfaChar c h).2 ((nfaChar c h).1 :: st) ({[c]} :: Ls) ({h.size, h.size + 1} ∪ T) :=
  .cons (.char c h) (hst.frame (Nat.le_add_right _ 2) fun s hs =>
    nfaChar_state c h (hst.alloc s hs)) hst.disjoint_fresh

theorem star (hst : Parts h (a :: st) (L :: Ls) T) :
    ∃ T', Parts (nfaStar a h).2 ((nfaStar a h).1 :: st) (KStar.kstar L :: Ls) T' := by
  cases hst with
  | cons ha hrest hd =>
    refine ⟨_, .cons ha.star (hrest.frame (Nat.le_add_right _ 2) ?_) ?_⟩
    · intro s hs
      exact nfaStar_state _ h (hrest.alloc s hs) fun he =>
        Set.disjoint_left.1 hd ha.fin (he ▸ hs)
    · exact Set.disjoint_union_left.2 ⟨hrest.disjoint_fresh, hd⟩

theorem cat (hst : Parts h (b :: a :: st) (K :: L :: Ls) T) :
    ∃ T', Parts (nfaCat a b h).2 ((nfaCat a b h).1 :: st) (L * K :: Ls) T' := by
  cases hst with
  | cons hb hrest hd =>
    cases hrest with
    | cons ha hrest hd' =>
      rw [Set.disjoint_union_right] at hd
      refine ⟨_, .cons (ha.cat hb hd.1.symm) (hrest.frame (Nat.le_refl _) ?_) ?_⟩
      · intro s hs
        exact nfaCat_state _ _ h fun he => Set.disjoint_left.1 hd' ha.fin (he ▸ hs)
      · exact Set.disjoint_union_left.2 ⟨hd', hd.2.mono_left Set.sdiff_subset⟩

theorem or (hst : Parts h (b :: a :: st) (K :: L :: Ls) T) :
    ∃ T', Parts (nfaOr a b h).2 ((nfaOr a b h).1 :: st) ((L + K) :: Ls) T' := by
  cases hst with
  | cons hb hrest hd =>
    cases hrest with
    | cons ha hrest hd' =>
      rw [Set.disjoint_union_right] at hd
      refine ⟨_, .cons (ha.or hb hd.1.symm) (hrest.frame (Nat.le_add_right _ 2) ?_) ?_⟩
      · intro s hs
        exact nfaOr_state _ _ h (hrest.alloc s hs) (fun he =>
          Set.disjoint_left.1 hd' ha.fin (he ▸ hs))
          fun he => Set.disjoint_left.1 hd.2 hb.fin (he ▸ hs)
      · exact Set.disjoint_union_left.2
          ⟨hrest.disjoint_fresh, Set.disjoint_union_left.2 ⟨hd', hd.2⟩⟩

theorem swap (hst : Parts h (b :: a :: st) (K :: L :: Ls) T) :
    Parts h (a :: b :: st) (L :: K :: Ls) T := by
  cases hst with
  | cons hb hrest hd =>
    cases hrest with
    | cons ha hrest hd' =>
      rw [Set.disjoint_union_right] at hd
      rw [Set.union_left_comm]
      exact .cons ha (.cons hb hrest hd.2) (Set.disjoint_union_right.2 ⟨hd.1.symm, hd'⟩)

theorem perm {fs fs' : List (NFA × Language UInt8)} (hp : fs.Perm fs')
    (hst : Parts h (fs.map Prod.fst) (fs.map Prod.snd) T) :
    Parts h (fs'.map Prod.fst) (fs'.map Prod.snd) T := by
  induction hp generalizing T with
  | nil => exact hst
  | cons x _ ih =>
    cases hst with
    | cons hx hrest hd => exact .cons hx (ih hrest) hd
  | swap x y fs => exact hst.swap
  | trans _ _ ih ih' => exact ih' (ih hst)

end Parts

theorem Pool.parts (hp : Pool h fs) : ∃ T, Parts h (fs.map Prod.fst) (fs.map Prod.snd) T := by
  induction hp with
  | empty => exact ⟨∅, .nil⟩
  | e _ ih =>
    obtain ⟨_, hst⟩ := ih
    exact ⟨_, hst.e⟩
  | char c _ ih =>
    obtain ⟨_, hst⟩ := ih
    exact ⟨_, hst.char c⟩
  | cat _ ih =>
    obtain ⟨_, hst⟩ := ih
    exact hst.cat
  | or _ ih =>
    obtain ⟨_, hst⟩ := ih
    exact hst.or
  | star _ ih =>
    obtain ⟨_, hst⟩ := ih
    exact hst.star
  | perm _ hp ih =>
    obtain ⟨_, hst⟩ := ih
    exact ⟨_, .perm hp hst⟩

/-! ## Edges -/

theorem Heap.mem_addE {s next u : Addr} {e : NfaEdge}
    (he : e ∈ ((h.addE s next).state u).edges) : e ∈ (h.state u).edges ∨ e.next = next := by
  rw [edges_addE] at he
  split_ifs at he with hu
  · rw [hu]
    exact (List.mem_append.1 he).imp id fun he => by rw [List.mem_singleton.1 he]
  · exact .inl he

theorem Heap.mem_addChar {s next u : Addr} {c : UInt8} {e : NfaEdge}
    (he : e ∈ ((h.addChar s c next).state u).edges) : e ∈ (h.state u).edges ∨ e.next = next := by
  rw [edges_addChar] at he
  split_ifs at he with hu
  · rw [hu]
    exact (List.mem_append.1 he).imp id fun he => by rw [List.mem_singleton.1 he]
  · exact .inl he

theorem Heap.mem_fresh {u : Addr} {e : NfaEdge} (he : e ∈ (h.fresh.2.state u).edges) :
    e ∈ (h.state u).edges := by
  rw [state_fresh] at he
  split_ifs at he
  · cases he
  · exact he

theorem Parts.start_mem {fs : List (NFA × Language UInt8)}
    (hst : Parts h (fs.map Prod.fst) (fs.map Prod.snd) T) : ∀ f ∈ fs, f.1.Start ∈ T := by
  induction fs generalizing T with
  | nil => exact nofun
  | cons f fs ih =>
    cases hst with
    | cons hf hrest =>
      exact List.forall_mem_cons.2 ⟨.inl hf.start, fun g hg => .inr (ih hrest g hg)⟩

/-- What the starts of the automata that are left, and of the states that are there, are like. -/
def Sourced (h : Heap) (fs : List (NFA × Language UInt8)) (s : Addr) : Prop :=
  s < h.size ∧ ∀ f ∈ fs, s ≠ f.1.Start

theorem Parts.sourced {fs : List (NFA × Language UInt8)}
    (hst : Parts h (a :: fs.map Prod.fst) (L :: fs.map Prod.snd) T) : Sourced h fs a.Start := by
  cases hst with
  | cons ha hrest hd =>
    refine ⟨ha.alloc _ ha.start, fun f hf he => ?_⟩
    exact Set.disjoint_left.1 hd ha.start (he ▸ hrest.start_mem f hf)

theorem Pool.grow {fs gs : List (NFA × Language UInt8)} {n : NFA}
    (hst : Parts h (fs.map Prod.fst) (fs.map Prod.snd) T)
    (ih : ∀ s, ∀ e ∈ (h.state s).edges, Sourced h fs e.next) (hsize : h'.size = h.size + 2)
    (hstart : n.Start = h.size) (hsub : gs ⊆ fs)
    (hedge : ∀ s, ∀ e ∈ (h'.state s).edges,
      (∃ u, e ∈ (h.state u).edges) ∨ e.next = h.size + 1 ∨ Sourced h gs e.next) :
    ∀ s, ∀ e ∈ (h'.state s).edges, Sourced h' ((n, K) :: gs) e.next := by
  have hlt (f : NFA × Language UInt8) (hf : f ∈ gs) : f.1.Start < h.size :=
    hst.alloc _ (hst.start_mem f (hsub hf))
  have hold {s : Addr} (hs : Sourced h gs s) : Sourced h' ((n, K) :: gs) s := by
    refine ⟨?_, List.forall_mem_cons.2 ⟨?_, hs.2⟩⟩
    · rw [hsize]
      exact Nat.lt_add_right 2 hs.1
    · rw [hstart]
      exact Nat.ne_of_lt hs.1
  intro s e he
  rcases hedge s e he with ⟨u, hu⟩ | hnew | hs
  · obtain ⟨hle, hne⟩ := ih u e hu
    exact hold ⟨hle, fun f hf => hne f (hsub hf)⟩
  · rw [hnew]
    refine ⟨?_, List.forall_mem_cons.2 ⟨?_, fun f hf he => ?_⟩⟩
    · rw [hsize]
      exact Nat.lt_succ_self _
    · rw [hstart]
      exact Nat.succ_ne_self _
    · exact Nat.not_succ_lt_self (he ▸ hlt f hf)
  · exact hold hs

/-- No edge leads to the start of an automaton that is left, or to a state that is not there
yet. -/
theorem Pool.edges (hp : Pool h fs) : ∀ s, ∀ e ∈ (h.state s).edges, Sourced h fs e.next := by
  induction hp with
  | empty => exact nofun
  | e hp ih =>
    obtain ⟨_, hst⟩ := hp.parts
    apply grow hst ih rfl rfl (List.Subset.refl _)
    intro s e he
    exact (Heap.mem_addE he).imp (fun he => ⟨s, Heap.mem_fresh he⟩) .inl
  | char c hp ih =>
    obtain ⟨_, hst⟩ := hp.parts
    apply grow hst ih rfl rfl (List.Subset.refl _)
    intro s e he
    exact (Heap.mem_addChar he).imp (fun he => ⟨s, Heap.mem_fresh he⟩) .inl
  | @cat h b K a L fs hp ih =>
    intro s e he
    have hold (u : Addr) (he : e ∈ (h.state u).edges) :
        Sourced (nfaCat a b h).2 (((nfaCat a b h).1, L * K) :: fs) e.next := by
      obtain ⟨hle, hne⟩ := ih u e he
      rw [List.forall_mem_cons, List.forall_mem_cons] at hne
      exact ⟨hle, List.forall_mem_cons.2 hne.2⟩
    rw [nfaCat, Heap.state_set] at he
    split_ifs at he
    · exact hold _ he
    · exact hold _ he
  | @or h b K a L fs hp ih =>
    obtain ⟨_, hst⟩ := hp.parts
    have ha : Sourced h ((b, K) :: fs) a.Start := hst.swap.sourced
    have hb : Sourced h ((a, L) :: fs) b.Start := hst.sourced
    apply grow hst ih rfl rfl (fun f hf => .tail _ (.tail _ hf))
    intro s e he
    rcases Heap.mem_addE he with he | he
    · rcases Heap.mem_addE he with he | he
      · rcases Heap.mem_addE he with he | he
        · rcases Heap.mem_addE he with he | he
          · exact .inl ⟨s, Heap.mem_fresh he⟩
          · exact .inr (.inr (he ▸ ⟨ha.1, (List.forall_mem_cons.1 ha.2).2⟩))
        · exact .inr (.inl he)
      · exact .inr (.inr (he ▸ ⟨hb.1, (List.forall_mem_cons.1 hb.2).2⟩))
    · exact .inr (.inl he)
  | star hp ih =>
    obtain ⟨_, hst⟩ := hp.parts
    apply grow hst ih rfl rfl (fun f hf => .tail _ hf)
    intro s e he
    rcases Heap.mem_addE he with he | he
    · rcases Heap.mem_addE he with he | he
      · rcases Heap.mem_addE he with he | he
        · rcases Heap.mem_addE he with he | he
          · exact .inl ⟨s, Heap.mem_fresh he⟩
          · exact .inr (.inr (he ▸ hst.sourced))
        · exact .inr (.inl he)
      · exact .inr (.inl he)
    · exact .inr (.inr (he ▸ hst.sourced))
  | perm _ hp ih => exact fun s e he =>
    ⟨(ih s e he).1, fun f hf => (ih s e he).2 f (hp.mem_iff.2 hf)⟩

theorem Parts.frag {fs : List (NFA × Language UInt8)}
    (hst : Parts h (fs.map Prod.fst) (fs.map Prod.snd) T) : ∀ f ∈ fs, ∃ S, Frag h f.1 S f.2 := by
  induction fs generalizing T with
  | nil => exact nofun
  | cons f fs ih =>
    cases hst with
    | cons hf hrest => exact List.forall_mem_cons.2 ⟨⟨_, hf⟩, ih hrest⟩

theorem Frag.language (hf : Frag h a S L) : a.language h = L := by
  ext w
  exact reads_iff.symm.trans (hf.lang w)

/-- Every automaton that is left has its language, no edge leads to its start, and none leaves
its end. -/
theorem Pool.correct (hp : Pool h fs) : ∀ f ∈ fs, f.1.language h = f.2 ∧
    (∀ s, ∀ e ∈ (h.state s).edges, e.next ≠ f.1.Start) ∧ (h.state f.1.End).edges = [] := by
  intro f hf
  obtain ⟨_, hst⟩ := hp.parts
  obtain ⟨S, hS⟩ := hst.frag f hf
  exact ⟨hS.language, fun s e he => (hp.edges s e he).2 f hf, hS.sink⟩

/-- The automaton for `(a|b)*c`, made when one for the empty word is left. -/
theorem Pool.correct_built :
    ∃ h n e, Pool h [(n, KStar.kstar ({[97]} + {[98]}) * {[99]}), (e, 1)] ∧
    n.language h = KStar.kstar ({[97]} + {[98]}) * {[99]} ∧
      (∀ s, ∀ e ∈ (h.state s).edges, e.next ≠ n.Start) ∧ (h.state n.End).edges = [] := by
  have hp := (((Pool.empty.e.char 97).char 98).or.star.char 99).cat
  exact ⟨_, _, _, hp, Pool.correct hp _ List.mem_cons_self⟩

end Misc.Re0
