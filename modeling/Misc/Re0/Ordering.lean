import Mathlib.Data.Set.Card
import Misc.Re0.Table

namespace Misc.Re0
open Misc.Lib
set_option autoImplicit true

def Distinct (h : Heap) (S : Set Addr) : Prop :=
  ∀ s ∈ S, ∀ t ∈ S, (h.state s).id = (h.state t).id → s = t

def byId (h : Heap) (l : List Addr) : List Addr :=
  l.mergeSort fun s t => (h.state s).id ≤ (h.state t).id

/-- The state with the least id, and behind it the others from the greatest id down. -/
def arrange (h : Heap) (l : List Addr) : List Addr :=
  match byId h l with
  | [] => []
  | s :: m => s :: m.reverse

variable {h : Heap} {l m : List Addr} {S : Set Addr} {x : Addr}

theorem Distinct.pairwise (hS : Distinct h S) (hl : l.Nodup) (hmem : ∀ s ∈ l, s ∈ S) :
    l.Pairwise fun s t => (h.state s).id ≠ (h.state t).id :=
  List.Pairwise.imp_of_mem (fun hs ht hne he => hne (hS _ (hmem _ hs) _ (hmem _ ht) he)) hl

theorem ncard_eq_length (hl : l.Nodup) (hmem : ∀ s, s ∈ l ↔ s ∈ S) : S.ncard = l.length := by
  have hset : S = (l.toFinset : Set Addr) := by
    ext s
    rw [List.coe_toFinset]
    exact (hmem s).symm
  rw [hset, Set.ncard_coe_finset, List.toFinset_card_of_nodup hl]

theorem Ascending.eq_of_perm (hl : Ascending h l) (hm : Ascending h m) (hp : l.Perm m) : l = m :=
  hp.eq_of_pairwise (fun _ _ _ _ hst hts => absurd hst (Nat.lt_asymm hts)) hl hm

theorem byId_perm (h : Heap) (l : List Addr) : (byId h l).Perm l := List.mergeSort_perm ..

theorem byId_ascending (hd : l.Pairwise fun s t => (h.state s).id ≠ (h.state t).id) :
    Ascending h (byId h l) := by
  have hle : (byId h l).Pairwise fun s t => decide ((h.state s).id ≤ (h.state t).id) = true := by
    refine List.pairwise_mergeSort ?_ ?_ l
    · intro s t u hst htu
      rw [decide_eq_true_eq] at hst htu ⊢
      exact Nat.le_trans hst htu
    · intro s t
      rw [Bool.or_eq_true, decide_eq_true_eq, decide_eq_true_eq]
      exact Nat.le_total _ _
  refine hle.imp₂ (fun s t hst hne => ?_) (hd.perm (byId_perm h l).symm fun hst => hst.symm)
  exact Nat.lt_of_le_of_ne (of_decide_eq_true hst) hne

theorem arrange_perm (h : Heap) (l : List Addr) : (arrange h l).Perm l := by
  refine List.Perm.trans ?_ (byId_perm h l)
  rw [arrange]
  split
  · exact .of_eq (Eq.symm ‹_›)
  · next hs =>
    rw [hs]
    exact (List.reverse_perm _).cons _

theorem Arranged.of_length_le (hl : l.length ≤ 2) : Arranged h l := by
  match l, hl with
  | [], _ => trivial
  | [_], _ => trivial
  | [_, _], _ => trivial

theorem arranged_of_ascending (hs : Ascending h (x :: m)) : Arranged h (x :: m.reverse) := by
  rcases List.eq_nil_or_concat' m with rfl | ⟨m, v, rfl⟩
  · exact .of_length_le (Nat.le_succ 1)
  rcases List.eq_nil_or_concat' m with rfl | ⟨m, u, rfl⟩
  · exact .of_length_le (Nat.le_refl 2)
  obtain ⟨hx, hm⟩ := List.pairwise_cons.1 hs
  obtain ⟨hm, -, hv⟩ := List.pairwise_append.1 hm
  obtain ⟨hm, -, hu⟩ := List.pairwise_append.1 hm
  rw [List.reverse_concat, List.reverse_concat]
  refine ⟨?_, List.forall_mem_cons.2 ⟨?_, fun s hs => ?_⟩⟩
  · rw [List.reverse_reverse]
    refine List.pairwise_cons.2 ⟨fun s hs => hx s ?_, hm⟩
    exact List.mem_append_left _ (List.mem_append_left _ hs)
  · exact ⟨hx v (List.mem_append_right _ (.head _)),
      hx u (List.mem_append_left _ (List.mem_append_right _ (.head _)))⟩
  · rw [List.mem_reverse] at hs
    exact ⟨hv s (List.mem_append_left _ hs) v (.head _), hu s hs u (.head _)⟩

theorem arranged_arrange (hd : l.Pairwise fun s t => (h.state s).id ≠ (h.state t).id) :
    Arranged h (arrange h l) := by
  have hasc := byId_ascending hd
  rw [arrange]
  split
  · trivial
  · next hs =>
    rw [hs] at hasc
    exact arranged_of_ascending hasc

theorem not_arranged_reverse (hs : Ascending h l) (hl : 3 ≤ l.length) :
    ¬ Arranged h l.reverse := by
  intro ha
  match hr : l.reverse, ha with
  | x :: u :: v :: r, ha =>
    have hless := (ha.2 x (.head _)).1
    have hrev := List.pairwise_reverse.2 hs
    rw [hr] at hrev
    exact Nat.lt_asymm hless ((List.pairwise_cons.1 hrev).1 u (.head _))
  | [_, _], _ | [_], _ | [], _ =>
    have hlen := congrArg List.length hr
    rw [List.length_reverse] at hlen
    simp only [List.length_cons, List.length_nil] at hlen
    omega

/-- Every loop over a map has the states arranged. -/
def Order.arranged (h : Heap) : Order := ⟨fun _ => arrange h, fun _ => arrange_perm h⟩

/-- The first closure comes arranged, the later ones have the greatest id first. -/
def Order.falling (h : Heap) : Order where
  keys
    | 0, l => arrange h l
    | _ + 1, l => (byId h l).reverse
  perm
    | 0, l => arrange_perm h l
    | _ + 1, l => (List.reverse_perm _).trans (byId_perm h l)

theorem Order.falling_zero (h : Heap) (l : List Addr) : (falling h).keys 0 l = arrange h l := rfl

theorem Order.falling_succ (h : Heap) (k : Nat) (l : List Addr) :
    (falling h).keys (k + 1) l = (byId h l).reverse := rfl

variable {o : Order} {n : NFA} {s : Subsets} {u v : DfaState} {i j : Nat} {w w' : List UInt8}

theorem Subsets.Inv.same_place (hi : s.Inv o h n []) (hu : s.At o h n w i u)
    (hv : s.At o h n w' j v)
    (heq : h.graph.evalFrom {n.Start} w = h.graph.evalFrom {n.Start} w')
    (hau : Ascending h u.states)
    (hav : Ascending h v.states) : i = j := by
  have hum := hi.made u (List.mem_of_getElem? hu.get)
  have hvm := hi.made v (List.mem_of_getElem? hv.get)
  have hperm : u.states.Perm v.states := by
    apply (List.perm_ext_iff_of_nodup hum.nodup hvm.nodup).2
    intro x
    rw [hu.mem, hv.mem, heq]
  have hstates := hau.eq_of_perm hav hperm
  have hlt : i < (s.dstates.map DfaState.states).length := by
    rw [List.length_map]
    exact (List.getElem?_eq_some_iff.1 hu.get).1
  rw [← List.getElem?_inj hlt hi.distinct, List.getElem?_map, List.getElem?_map, hu.get, hv.get,
    Option.map_some, Option.map_some, hstates]

theorem Subsets.At.ascending (ha : s.At o h n w i u)
    (hd : Distinct h (h.graph.evalFrom {n.Start} w))
    (ho : ∀ k l, l.Nodup → (∀ x, x ∈ l ↔ x ∈ h.graph.evalFrom {n.Start} w) →
      Arranged h (o.keys k l)) :
    Ascending h u.states := by
  obtain ⟨k, l, -, hl, hmem, hu⟩ := ha.formed
  have hkeys := hd.pairwise ((o.perm k l).nodup_iff.2 hl) fun x hx =>
    (hmem x).1 ((o.perm k l).mem_iff.1 hx)
  rw [hu, nfaDstate_ascending_iff hkeys]
  exact ho k l hl hmem

end Misc.Re0
