import Mathlib
import Misc.Epaxos.Votes
import Misc.Lib.Serial

namespace Misc.Epaxos
open Misc.Lib
set_option autoImplicit true

/-- What `sort.Slice` requires of the function on the elements that it sorts. -/
structure StrictWeakOn (less : α → α → Bool) (l : List α) : Prop where
  irrefl : ∀ a ∈ l, less a a = false
  trans : ∀ a ∈ l, ∀ b ∈ l, ∀ c ∈ l, less a b = true → less b c = true → less a c = true
  negTrans : ∀ a ∈ l, ∀ b ∈ l, ∀ c ∈ l, less a b = false → less b c = false → less a c = false

/-- The function is called for the elements of the slice only. -/
def SortSlice.SortsElements (s : SortSlice α) : Prop :=
  ∀ less l, StrictWeakOn less l → (s.sort less l).Pairwise fun a b => less b a = false

theorem insertion_sortsElements (α : Type) : (SortSlice.insertion α).SortsElements := by
  intro less l h
  -- insertion sort of the elements, each with the proof that it is one
  let less' : { x // x ∈ l } → { x // x ∈ l } → Bool := fun a b => less a.1 b.1
  have hweak : StrictWeak less' :=
    ⟨fun a => h.irrefl a.1 a.2, fun a b c => h.trans a.1 a.2 b.1 b.2 c.1 c.2,
      fun a b c => h.negTrans a.1 a.2 b.1 b.2 c.1 c.2⟩
  have hsorted := (SortSlice.insertion { x // x ∈ l }).sorted less' l.attach hweak
  have hmap :=
    List.map_insertionSort (fun a b => less' b a = false) (fun a b => less b a = false)
    Subtype.val l.attach fun a _ b _ => Iff.rfl
  rw [List.attach_map_subtype_val] at hmap
  have hval : ((SortSlice.insertion { x // x ∈ l }).sort less' l.attach).map Subtype.val =
      (SortSlice.insertion α).sort less l := hmap
  rw [← hval]
  exact List.pairwise_map.2 hsorted

/-- The ids of each component lie in one half of the circle of the 64-bit numbers. -/
structure Near (ids : List InstanceId) : Prop where
  rid : ∃ r, ∀ a ∈ ids, (a.Rid - r).toNat < 2 ^ 63
  index : ∀ r, ∃ i, ∀ a ∈ ids, a.Rid = r → (a.Index - i).toNat < 2 ^ 63

/-- What the code expects of the comparison of some ids, and of what it does with them. -/
structure Comparable (lib : Litu) (ids : List InstanceId) : Prop where
  antisymm : ∀ a ∈ ids, ∀ b ∈ ids, cmpInstanceId a b < 0 ↔ 0 < cmpInstanceId b a
  trans : ∀ a ∈ ids, ∀ b ∈ ids, ∀ c ∈ ids, cmpInstanceId a b < 0 → cmpInstanceId b c < 0 →
    cmpInstanceId a c < 0
  zero : ∀ a ∈ ids, ∀ b ∈ ids, cmpInstanceId a b = 0 ↔ a = b
  sorted : ∀ l ⊆ ids, (lib.sortIds l).Pairwise fun a b => cmpInstanceId a b ≤ 0
  unique : ∀ l ⊆ ids, ∀ l', l.Perm l' → lib.sortIds l = lib.sortIds l'
  equal : ∀ deps ⊆ ids, ∀ (deps' : List InstanceId) (resp : PreAcceptResp), deps.Nodup →
    deps'.Nodup → (∀ x, x ∈ deps ↔ x ∈ deps') → resp.Deps = deps'.map some →
    SameDeps lib (deps.map some) resp

section
variable {lib : Litu} {ids l l' : List InstanceId} {a b c : InstanceId} {r i x y base : UInt64}

theorem ahead_iff : Ahead base.toBitVec x.toBitVec ↔ (x - base).toNat < 2 ^ 63 := by
  rw [Ahead, ← UInt64.toBitVec_sub, UInt64.toNat_toBitVec]
  omega

theorem signed_neg_iff : (x - y).toInt64 < 0 ↔ (x.toBitVec - y.toBitVec).toInt < 0 :=
  Int64.lt_iff_toInt_lt

theorem signed_pos_iff : 0 < (x - y).toInt64 ↔ 0 < (x.toBitVec - y.toBitVec).toInt :=
  Int64.lt_iff_toInt_lt

/-- The place of an id among ids that are near: its distances from the bases. -/
def rank (r : UInt64) (i : UInt64 → UInt64) (a : InstanceId) : Nat ×ₗ Nat :=
  toLex ((a.Rid - r).toNat, (a.Index - i a.Rid).toNat)

theorem cmp_rank {i : UInt64 → UInt64} (hra : (a.Rid - r).toNat < 2 ^ 63)
    (hrb : (b.Rid - r).toNat < 2 ^ 63) (hia : (a.Index - i a.Rid).toNat < 2 ^ 63)
    (hib : (b.Index - i b.Rid).toNat < 2 ^ 63) :
    (cmpInstanceId a b < 0 ↔ rank r i a < rank r i b) ∧
      (0 < cmpInstanceId a b ↔ rank r i b < rank r i a) := by
  rw [cmpInstanceId, rank, rank, Prod.Lex.toLex_lt_toLex, Prod.Lex.toLex_lt_toLex]
  dsimp only
  split_ifs with hr
  · rw [← hr] at hib ⊢
    rw [signed_neg_iff, signed_pos_iff, (ahead_iff.2 hia).sub_neg_iff (ahead_iff.2 hib),
      (ahead_iff.2 hia).sub_pos_iff (ahead_iff.2 hib), or_iff_right (Nat.lt_irrefl _),
      or_iff_right (Nat.lt_irrefl _), and_iff_right rfl, and_iff_right rfl]
    exact ⟨Iff.rfl, Iff.rfl⟩
  · have hne : (a.Rid - r).toNat ≠ (b.Rid - r).toNat := fun h =>
      hr (UInt64.toBitVec_inj.1 (Ahead.toNat_inj r.toBitVec h))
    rw [signed_neg_iff, signed_pos_iff, (ahead_iff.2 hra).sub_neg_iff (ahead_iff.2 hrb),
      (ahead_iff.2 hra).sub_pos_iff (ahead_iff.2 hrb), or_iff_left fun h => hne h.1,
      or_iff_left fun h => hne h.1.symm]
    exact ⟨Iff.rfl, Iff.rfl⟩

theorem Near.ranks (h : Near ids) : ∃ f : InstanceId → Nat ×ₗ Nat, ∀ a ∈ ids, ∀ b ∈ ids,
    (cmpInstanceId a b < 0 ↔ f a < f b) ∧ (0 < cmpInstanceId a b ↔ f b < f a) := by
  obtain ⟨r, hr⟩ := h.rid
  choose i hi using h.index
  exact ⟨rank r i, fun a ha b hb =>
    cmp_rank (hr a ha) (hr b hb) (hi a.Rid a ha rfl) (hi b.Rid b hb rfl)⟩

theorem cmp_nonpos_iff : cmpInstanceId a b ≤ 0 ↔ ¬ 0 < cmpInstanceId a b := by
  rw [Int64.not_lt]

theorem Near.strictWeakOn (h : Near ids) (hl : l ⊆ ids) :
    StrictWeakOn (fun a b => decide (cmpInstanceId a b < 0)) l := by
  obtain ⟨f, hf⟩ := h.ranks
  have hneg {a b : InstanceId} (ha : a ∈ l) (hb : b ∈ l) := (hf a (hl ha) b (hl hb)).1
  refine ⟨fun a ha => ?_, fun a ha b hb c hc hab hbc => ?_, fun a ha b hb c hc hab hbc => ?_⟩
  · rw [decide_eq_false_iff_not, hneg ha ha]
    exact lt_irrefl _
  · rw [decide_eq_true_iff, hneg ha hb] at hab
    rw [decide_eq_true_iff, hneg hb hc] at hbc
    rw [decide_eq_true_iff, hneg ha hc]
    exact hab.trans hbc
  · rw [decide_eq_false_iff_not, hneg ha hb, not_lt] at hab
    rw [decide_eq_false_iff_not, hneg hb hc, not_lt] at hbc
    rw [decide_eq_false_iff_not, hneg ha hc, not_lt]
    exact hbc.trans hab

theorem Near.sorted (h : Near ids) (hsort : lib.sort.SortsElements) (hl : l ⊆ ids) :
    (lib.sortIds l).Pairwise fun a b => cmpInstanceId a b ≤ 0 := by
  obtain ⟨f, hf⟩ := h.ranks
  have hsorted := hsort _ l (h.strictWeakOn hl)
  refine hsorted.imp_of_mem fun {a b} ha hb hba => ?_
  have ha := hl ((lib.sort.perm _ l).mem_iff.1 ha)
  have hb := hl ((lib.sort.perm _ l).mem_iff.1 hb)
  rw [decide_eq_false_iff_not, (hf b hb a ha).1] at hba
  rwa [cmp_nonpos_iff, (hf a ha b hb).2]

/-- All orders of ids that are near are sorted alike. -/
theorem Near.unique (h : Near ids) (hsort : lib.sort.SortsElements)
    (hl : l ⊆ ids) (hp : l.Perm l') : lib.sortIds l = lib.sortIds l' := by
  obtain ⟨f, hf⟩ := h.ranks
  have hl' : l' ⊆ ids := fun a ha => hl (hp.mem_iff.2 ha)
  have hperm := ((lib.sort.perm (fun a b => cmpInstanceId a b < 0) l).trans hp).trans
    (lib.sort.perm (fun a b => cmpInstanceId a b < 0) l').symm
  refine hperm.eq_of_pairwise (fun a b ha hb hab hba => ?_)
    (h.sorted hsort hl) (h.sorted hsort hl')
  have ha := hl ((lib.sort.perm _ l).mem_iff.1 ha)
  have hb := hl' ((lib.sort.perm _ l').mem_iff.1 hb)
  rw [cmp_nonpos_iff, (hf b hb a ha).2, ← (hf a ha b hb).1, Int64.not_lt] at hba
  exact cmpInstanceId_eq_zero.1 (Int64.le_antisymm hab hba)

theorem Near.comparable (h : Near ids) (hsort : lib.sort.SortsElements) :
    Comparable lib ids where
  antisymm := by
    obtain ⟨f, hf⟩ := h.ranks
    intro a ha b hb
    rw [(hf a ha b hb).1, (hf b hb a ha).2]
  trans := by
    obtain ⟨f, hf⟩ := h.ranks
    intro a ha b hb c hc hab hbc
    rw [(hf a ha b hb).1] at hab
    rw [(hf b hb c hc).1] at hbc
    rw [(hf a ha c hc).1]
    exact hab.trans hbc
  zero _ _ _ _ := cmpInstanceId_eq_zero
  sorted _ hl := h.sorted hsort hl
  unique _ hl _ hp := h.unique hsort hl hp
  equal deps hdeps deps' resp hd hd' hmem hresp := by
    have hsame := h.unique hsort hdeps ((List.perm_ext_iff_of_nodup hd hd').2 hmem)
    rw [sameDeps_iff, hresp]
    exact ⟨lib.sortIds deps, sortInstanceIds_map .., by rw [hsame, sortInstanceIds_map]⟩

theorem cmp_irrefl (a : InstanceId) : ¬ cmpInstanceId a a < 0 := by
  rw [cmpInstanceId_eq_zero.2 rfl]
  exact Int64.lt_irrefl

theorem Comparable.near (h : Comparable lib ids) : Near ids where
  rid := by
    by_cases hnil : ids = []
    · rw [hnil]
      exact ⟨0, nofun⟩
    obtain ⟨m, hm, hfirst⟩ := exists_first hnil (fun a _ => cmp_irrefl a) h.trans
    refine ⟨m.Rid, fun a ha => ?_⟩
    have ham := hfirst a ha
    rw [cmpInstanceId] at ham
    split_ifs at ham with hr
    · rw [hr, UInt64.sub_self]
      decide
    · rw [signed_neg_iff] at ham
      exact ahead_iff.1 (Ahead.of_not_neg ham)
  index := by
    intro r
    by_cases hnil : ids.filter (·.Rid = r) = []
    · refine ⟨0, fun a ha hr => ?_⟩
      exact absurd (decide_eq_true hr) (List.filter_eq_nil_iff.1 hnil a ha)
    have hsub {a : InstanceId} (ha : a ∈ ids.filter (·.Rid = r)) := (List.mem_filter.1 ha).1
    obtain ⟨m, hm, hfirst⟩ := exists_first hnil (fun a _ => cmp_irrefl a)
      fun a ha b hb c hc => h.trans a (hsub ha) b (hsub hb) c (hsub hc)
    have hmr := of_decide_eq_true (List.mem_filter.1 hm).2
    refine ⟨m.Index, fun a ha hr => ?_⟩
    have ham := hfirst a (List.mem_filter.2 ⟨ha, decide_eq_true hr⟩)
    rw [cmpInstanceId, if_pos (hr.trans hmr.symm), signed_neg_iff] at ham
    exact ahead_iff.1 (Ahead.of_not_neg ham)

/-- Ids are compared as the code expects if and only if those of each component lie in one half
of the circle. -/
theorem comparable_iff (hsort : lib.sort.SortsElements) : Comparable lib ids ↔ Near ids :=
  ⟨Comparable.near, fun h => h.comparable hsort⟩

end

theorem comparable_iff_plain :
    Comparable .plain [⟨1, 1⟩, ⟨0, 7⟩] ↔ Near [⟨1, 1⟩, ⟨0, 7⟩] :=
  comparable_iff (insertion_sortsElements InstanceId)

def opposite : InstanceId := ⟨9223372036854775808, 0⟩

/-- Each of two ids that are opposite is before the other. -/
theorem opposite_ids : ¬ ∀ (lib : Litu) (ids : List InstanceId), lib.sort.SortsElements →
    Comparable lib ids := by
  intro h
  have hopp := (h .plain [⟨0, 0⟩, opposite] (insertion_sortsElements InstanceId)).antisymm
    ⟨0, 0⟩ (by decide) opposite (by decide)
  exact absurd (hopp.1 (by decide)) (by decide)

end Misc.Epaxos
