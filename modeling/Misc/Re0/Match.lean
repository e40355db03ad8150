import Misc.Re0.Agreement
import Misc.Re0.Keeping

namespace Misc.Re0
open Misc.Lib
set_option autoImplicit true

/-! ## The end accepts -/

def Heap.setAccept (h : Heap) (s : Addr) : Heap := h.set s { h.state s with accept := true }

variable {n : NFA} {h h' : Heap} {c : UInt8} {S : Set Addr} {K L : Language UInt8}
  {w t s : List UInt8} {e : Exp} {l : Level} {o : Order} {sub : Subsets}

theorem Heap.edges_setAccept (h : Heap) (num : Addr → Nat) (s u : Addr) :
    (((h.number num).setAccept s).state u).edges = (h.state u).edges := by
  rw [setAccept, state_set]
  split_ifs with hu
  · rw [hu]
    rfl
  · rfl

theorem evalFrom_congr (heq : ∀ s, (h'.state s).edges = (h.state s).edges)
    (s : Addr) (w : List UInt8) : h'.graph.evalFrom {s} w = h.graph.evalFrom {s} w := by
  have hclosed : Paths.Closed h.graph Set.univ := fun s _ o => Set.subset_univ _
  ext t
  rw [← Paths.reads_iff, ← Paths.reads_iff]
  exact hclosed.reads_congr (fun s _ o => Heap.step_congr (heq s) o) (Set.mem_univ s)

theorem Frag.evalFrom_nonempty (hf : Frag h n S L) :
    (h.graph.evalFrom {n.Start} w).Nonempty ↔ ∃ v, w ++ v ∈ L := by
  constructor
  · rintro ⟨x, hx⟩
    have hread := Paths.reads_iff.2 hx
    obtain ⟨v, hv⟩ := hf.live x (hf.closedSet.reads hf.start hread)
    exact ⟨v, (hf.lang _).1 (hread.trans hv)⟩
  · rintro ⟨v, hv⟩
    have hend := Paths.reads_iff.1 ((hf.lang _).2 hv)
    exact Paths.evalFrom_append_nonempty ⟨_, hend⟩

theorem Frag.evalFrom_start (hf : Frag h n S L) (hs : n.Start ∈ h.graph.evalFrom {n.Start} w) :
    w = [] := by
  obtain ⟨x, rfl, hx⟩ := Paths.reads_iff.2 hs
  have hsource : ∀ s ∈ S, ∀ o, n.Start ∉ h.graph.step s o := by
    rintro s hs o ⟨e, he, hnext, -⟩
    exact hf.source s hs e he hnext
  rw [(hf.closedSet.isPath_source hsource hf.start hx).2]
  rfl

/-- What one more byte makes of the beginning of a word: it is dropped when no word begins so. -/
noncomputable def begun (L : Language UInt8) (w : List UInt8) (c : UInt8) : List UInt8 :=
  open Classical in if ∃ v, w ++ [c] ++ v ∈ L then w ++ [c] else []

/-- The part of a text behind the last byte with which it begins no word. -/
noncomputable def behind (L : Language UInt8) (t : List UInt8) :
    List UInt8 := t.foldl (begun L) []

theorem Frag.remaining_eq (hf : Frag h n S L) (heq : ∀ s, (h'.state s).edges = (h.state s).edges)
    (t : List UInt8) : n.remaining h' t = behind L t := by
  have hrestart : n.restart h' = begun L := by
    funext w c
    rw [NFA.restart, evalFrom_congr heq, begun]
    by_cases hc : (h.graph.evalFrom {n.Start} (w ++ [c])).Nonempty
    · rw [if_pos hc, if_pos (hf.evalFrom_nonempty.1 hc)]
    · rw [if_neg hc, if_neg (mt hf.evalFrom_nonempty.2 hc)]
  rw [NFA.remaining, hrestart, behind]

theorem Frag.accepts_setAccept (hf : Frag h n S L) (num : Addr → Nat) :
    n.accepts ((h.number num).setAccept n.End) = L := by
  ext w
  rw [← hf.lang, Paths.reads_iff]
  constructor
  · rintro ⟨s, hacc, hs⟩
    rw [evalFrom_congr (h.edges_setAccept num _)] at hs
    have hin := hf.closedSet.reads hf.start (Paths.reads_iff.2 hs)
    rw [Heap.setAccept, Heap.state_set] at hacc
    split_ifs at hacc with hend
    · rwa [← hend]
    · have hblank := (hf.blank s hin).2
      change (h.state s).accept = true at hacc
      rw [hblank] at hacc
      cases hacc
  · intro hend
    refine ⟨n.End, ?_, ?_⟩
    · rw [Heap.setAccept, Heap.state_set, if_pos rfl]
    · rwa [evalFrom_congr (h.edges_setAccept num _)]

/-! ## Bytes from 128 on -/

def High (L : Language UInt8) : Prop := ∃ w ∈ L, ∃ c ∈ w, 128 ≤ c.toNat

theorem High.add_left (hL : High L) : High (L + K) := by
  obtain ⟨w, hw, hc⟩ := hL
  exact ⟨w, .inl hw, hc⟩

theorem High.add_right (hK : High K) : High (L + K) := by
  obtain ⟨w, hw, hc⟩ := hK
  exact ⟨w, .inr hw, hc⟩

theorem High.mul_left (hL : High L) (hK : ∃ w, w ∈ K) : High (L * K) := by
  obtain ⟨w, hw, c, hc, hhigh⟩ := hL
  obtain ⟨v, hv⟩ := hK
  exact ⟨w ++ v, Language.append_mem_mul hw hv, c, List.mem_append_left v hc, hhigh⟩

theorem High.mul_right (hK : High K) (hL : ∃ w, w ∈ L) : High (L * K) := by
  obtain ⟨w, hw, c, hc, hhigh⟩ := hK
  obtain ⟨v, hv⟩ := hL
  exact ⟨v ++ w, Language.append_mem_mul hv hw, c, List.mem_append_right v hc, hhigh⟩

theorem High.kstar (hL : High L) : High (KStar.kstar L) := by
  obtain ⟨w, hw, hc⟩ := hL
  refine ⟨w, Language.mem_kstar.2 ⟨[w], ?_, List.forall_mem_singleton.2 hw⟩, hc⟩
  rw [List.flatten_singleton]

theorem Exp.exists_mem (e : Exp) :
    (∃ w, w ∈ e.built.matches') ∧ ∃ w, w ∈ e.before.matches' := by
  induction e with
  | char c => exact ⟨⟨[c], rfl⟩, [c], rfl⟩
  | group e ih => exact ⟨ih.1, ih.1⟩
  | star e _ => exact ⟨⟨[], Language.nil_mem_kstar _⟩, [], Language.nil_mem_kstar _⟩
  | cat a b iha ihb =>
    obtain ⟨⟨v, hv⟩, -⟩ := iha
    obtain ⟨⟨w, hw⟩, -⟩ := ihb
    exact ⟨⟨v ++ w, Language.append_mem_mul hv hw⟩, v, .inl hv⟩
  | or a b iha _ =>
    obtain ⟨-, v, hv⟩ := iha
    exact ⟨⟨v, .inl hv⟩, v, .inl hv⟩

theorem escaped_lt_iff : (escaped c).toNat < 128 ↔ c.toNat < 128 := by
  rw [escaped]
  split_ifs with hn ht hr
  · rw [hn]
    exact iff_of_true (by decide) (by decide)
  · rw [ht]
    exact iff_of_true (by decide) (by decide)
  · rw [hr]
    exact iff_of_true (by decide) (by decide)
  · rfl

theorem Writes.high (h : Writes l e t) (ht : ∃ c ∈ t, 128 ≤ c.toNat) :
    High e.built.matches' ∧ High e.before.matches' := by
  induction h with
  | plain c =>
    obtain ⟨d, hd, hhigh⟩ := ht
    rw [List.mem_singleton.1 hd] at hhigh
    exact ⟨⟨[c], rfl, c, .head _, hhigh⟩, [c], rfl, c, .head _, hhigh⟩
  | escape c =>
    obtain ⟨d, hd, hhigh⟩ := ht
    rcases List.mem_pair.1 hd with rfl | rfl
    · exact absurd hhigh (by decide)
    · have hesc := Nat.le_of_not_lt (mt escaped_lt_iff.1 (Nat.not_lt_of_le hhigh))
      exact ⟨⟨_, rfl, _, .head _, hesc⟩, _, rfl, _, .head _, hesc⟩
  | group _ ih =>
    obtain ⟨d, hd, hhigh⟩ := ht
    rw [List.mem_cons, List.mem_append, List.mem_singleton] at hd
    rcases hd with rfl | hd | rfl
    · exact absurd hhigh (by decide)
    · have hin := (ih ⟨d, hd, hhigh⟩).1
      exact ⟨hin, hin⟩
    · exact absurd hhigh (by decide)
  | star _ ih =>
    obtain ⟨d, hd, hhigh⟩ := ht
    rw [List.mem_append, List.mem_singleton] at hd
    rcases hd with hd | rfl
    · have hin := (ih ⟨d, hd, hhigh⟩).1.kstar
      exact ⟨hin, hin⟩
    · exact absurd hhigh (by decide)
  | one _ ih => exact ih ht
  | @cat a t b u _ _ iha ihb =>
    obtain ⟨d, hd, hhigh⟩ := ht
    rcases List.mem_append.1 hd with hd | hd
    · have hin := (iha ⟨d, hd, hhigh⟩).1
      exact ⟨hin.mul_left b.exists_mem.1, hin.add_left⟩
    · have hin := (ihb ⟨d, hd, hhigh⟩).1
      exact ⟨hin.mul_right a.exists_mem.1, hin.add_right⟩
  | only _ ih => exact ih ht
  | or _ _ iha ihb =>
    obtain ⟨d, hd, hhigh⟩ := ht
    rw [List.mem_append, List.mem_cons] at hd
    rcases hd with hd | rfl | hd
    · have hin := (iha ⟨d, hd, hhigh⟩).2
      exact ⟨hin.add_left, hin.add_left⟩
    · exact absurd hhigh (by decide)
    · obtain ⟨hbuilt, hbefore⟩ := ihb ⟨d, hd, hhigh⟩
      exact ⟨hbuilt.add_right, hbefore.add_right⟩

theorem Subsets.Inv.low (hi : sub.Inv o h n []) (hst : sub.stack = [])
    (hw : (h.graph.evalFrom {n.Start} w).Nonempty) : ∀ c ∈ w, c.toNat < 128 := by
  induction w using List.reverseRecOn with
  | nil => exact nofun
  | append_singleton w c ih =>
    have hleft := Paths.evalFrom_append_nonempty hw
    obtain ⟨u₀, hu₀⟩ := hi.at_nil
    obtain ⟨i, u, -, hu⟩ := hi.run hst hu₀ (ih hleft)
    rw [← NFA.remaining, NFA.remaining_eq hleft] at hu
    obtain ⟨x, hx⟩ := hw
    rw [εNFA.evalFrom_append_singleton] at hx
    obtain ⟨y, hy, hyx⟩ := (h.graph.mem_stepSet_iff ..).1 hx
    obtain ⟨z, ⟨e, he, -, hlabel⟩, -⟩ := h.graph.mem_εClosure_iff_exists.1 hyx
    obtain ⟨hsilent, rfl⟩ := NfaEdge.label_eq_some.1 hlabel
    have hnarrow := hi.narrow i u hu.get (hst ▸ List.not_mem_nil)
    refine List.forall_mem_append.2 ⟨ih hleft, List.forall_mem_singleton.2 ?_⟩
    exact hnarrow y ((hu.mem y).2 hy) e he hsilent

theorem bind_eq_ok {α β : Type} {x : Except Stop α} {f : α → Except Stop β} {y : β}
    (h : (x >>= f) = .ok y) : ∃ a, x = .ok a ∧ f a = .ok y := by
  cases x with
  | error => cases h
  | ok a => exact ⟨a, rfl, h⟩

theorem DFA.step_low {d : DFA} {i j : Nat} (h : d.step i c = .ok j) : c.toNat < 128 := by
  rw [DFA.step] at h
  split at h
  · split_ifs at h with hc
    exact hc
  · cases h

theorem DFA.run_low {d : DFA} {i j : Nat} (h : t.foldlM d.step i = .ok j) :
    ∀ c ∈ t, c.toNat < 128 := by
  induction t generalizing i with
  | nil => exact nofun
  | cons c t ih =>
    rw [List.foldlM_cons] at h
    obtain ⟨k, hk, h⟩ := bind_eq_ok h
    exact List.forall_mem_cons.2 ⟨DFA.step_low hk, ih h⟩

theorem DFA.match_low {d : DFA} {v : Bool} (h : d.match t = .ok v) : ∀ c ∈ t, c.toNat < 128 := by
  obtain ⟨j, hj, -⟩ := bind_eq_ok h
  exact DFA.run_low hj

/-! ## From the expression to the answer -/

/-- With fuel enough, `Match` comes to an answer if all bytes are below 128, and else to none.
The answer is whether the part of the text that counts is not empty and a word of the language
that is built. -/
theorem Writes.match (h : Writes .alt e t) (s : List UInt8) : ∃ N, ∀ fuel, N ≤ fuel → ∀ o,
    ((∀ c ∈ t ++ s, c.toNat < 128) → ∃ v, Match o fuel t s = .ok v ∧
      (v = true ↔ behind e.built.matches' s ≠ [] ∧
        behind e.built.matches' s ∈ e.built.matches')) ∧
    ∀ v, Match o fuel t s = .ok v → ∀ c ∈ t ++ s, c.toNat < 128 := by
  obtain ⟨n, g, S, hn, hf⟩ := h.toNFA
  have hw : g.Within := REtoNFA_within hn
  have hstart : n.Start < g.size := hf.alloc _ hf.start
  have hin : ∀ x, Graph.Reach g.succs n.Start x → x ∈ S := by
    intro x hx
    induction hx with
    | refl => exact hf.start
    | tail _ hnext ih =>
      obtain ⟨y, hy, rfl⟩ := List.mem_map.1 hnext
      exact hf.closed _ ih y hy
  obtain ⟨M, hM⟩ := subsets_spec g.size
  refine ⟨max M (g.size + 1), fun fuel hfuel o => ?_⟩
  obtain ⟨hM', hsize⟩ := max_le_iff.1 hfuel
  obtain ⟨k, num, halloc, -⟩ :=
    nfaAllocId_spec hw hstart (fun x hx => (hf.blank x (hin x hx)).1) hsize
  have hedges := g.edges_setAccept num n.End
  have hmatch : Match o fuel t s =
      (nfaToDfa o fuel ((g.number num).setAccept n.End) n).bind fun d => d.match s := by
    rw [Match, hn]
    dsimp only
    rw [halloc]
    rfl
  have hw' : ((g.number num).setAccept n.End).Within := by
    intro x hx y hy
    rw [hedges] at hy
    exact hw x hx y hy
  rcases hM ((g.number num).setAccept n.End) n o fuel rfl hw' hstart hM'
    with ⟨sub, hsub, hi, hst⟩ | ⟨hpanic, u, hu, hwide⟩
  · have hdfa : nfaToDfa o fuel ((g.number num).setAccept n.End) n = .ok sub.dfa := by
      rw [nfaToDfa, hsub]
      rfl
    rw [hdfa] at hmatch
    constructor
    · intro hlow
      obtain ⟨i, u, v, hu, hv, hiff⟩ := hi.match hst fun c hc =>
        hlow c (List.mem_append_right t hc)
      rw [hf.remaining_eq hedges] at hu hiff
      rw [hf.accepts_setAccept] at hiff
      refine ⟨v, hmatch.trans hv, hiff.trans (and_congr_left fun _ => not_congr ⟨?_, hu.zero⟩)⟩
      rintro rfl
      obtain ⟨u', hu'⟩ := hi.at_nil
      apply hf.evalFrom_start
      rw [← evalFrom_congr hedges, hu.evalFrom_eq hu']
      exact εNFA.subset_εClosure _ _ rfl
    · intro v hv
      rw [hmatch] at hv
      refine List.forall_mem_append.2 ⟨fun c hc => ?_, DFA.match_low hv⟩
      by_contra hhigh
      obtain ⟨w, hin, d, hd, hd'⟩ := (h.high ⟨c, hc, Nat.le_of_not_lt hhigh⟩).1
      have hne : (g.graph.evalFrom {n.Start} w).Nonempty :=
        ⟨_, Paths.reads_iff.1 ((hf.lang w).2 hin)⟩
      rw [← evalFrom_congr hedges] at hne
      exact absurd (hi.low hst hne d hd) (Nat.not_lt_of_le hd')
  · have hdfa : nfaToDfa o fuel ((g.number num).setAccept n.End) n = .error .panic := by
      rw [nfaToDfa, hpanic]
      rfl
    rw [hdfa] at hmatch
    constructor
    · intro hlow
      refine absurd (fun x _ y hy => ?_) hwide
      rw [hedges] at hy
      refine REtoNFA_labels (Q := fun c => c.toNat < 128) hn (fun c hc => ?_) x y hy
      have hc := hlow c (List.mem_append_left s hc)
      exact ⟨hc, escaped_lt_iff.2 hc⟩
    · intro v hv
      rw [hmatch] at hv
      cases hv

/-! ## Without dead ends -/

theorem behind_append (L : Language UInt8) (t : List UInt8) (c : UInt8) :
    behind L (t ++ [c]) = begun L (behind L t) c := List.foldl_concat ..

theorem behind_eq_self (ht : ∃ v, t ++ v ∈ L) : behind L t = t := by
  induction t using List.reverseRecOn with
  | nil => rfl
  | append_singleton t c ih =>
    obtain ⟨v, hv⟩ := ht
    have hleft : behind L t = t := ih ⟨c :: v, by rwa [List.append_cons]⟩
    rw [behind_append, hleft, begun, if_pos ⟨v, hv⟩]

/-- A text whose last byte alone may be a dead end is kept whole if it is a word, and counts as
empty if it begins none. -/
theorem behind_of_dropLast (hs : ∃ v, t.dropLast ++ v ∈ L) (hne : t ≠ []) :
    (behind L t ≠ [] ∧ behind L t ∈ L) ↔ t ∈ L := by
  by_cases hbegin : ∃ v, t ++ v ∈ L
  · rw [behind_eq_self hbegin]
    exact and_iff_right hne
  · have hnot : t ∉ L := fun hin => hbegin ⟨[], by rwa [List.append_nil]⟩
    have hempty : behind L t = [] := by
      have hsplit := List.dropLast_concat_getLast hne
      have hbegin' : ¬ ∃ v, t.dropLast ++ [t.getLast hne] ++ v ∈ L := by rwa [hsplit]
      rw [← hsplit, behind_append, behind_eq_self hs, begun, if_neg hbegin']
    exact iff_of_false (fun hb => hb.1 hempty) hnot

/-- With fuel enough, `Match` says of a text without a panic whether it is a word of the
expression. -/
def Answers (e : Exp) (t s : List UInt8) : Prop :=
  ∃ N, ∀ fuel, N ≤ fuel → ∀ o, ∃ v, Match o fuel t s = .ok v ∧ (v = true ↔ s ∈ e.regex.matches')

theorem Answers.low (ha : Answers e t s) (h : Writes .alt e t) :
    (∀ c ∈ t ++ s, c.toNat < 128) ∧ (s = [] → s ∉ e.regex.matches') := by
  obtain ⟨N, hN⟩ := ha
  obtain ⟨M, hM⟩ := h.match s
  let o : Order := ⟨fun _ l => l, fun _ l => .refl l⟩
  obtain ⟨v, hv, hiff⟩ := hN (max N M) (le_max_left ..) o
  obtain ⟨hright, hlow⟩ := hM (max N M) (le_max_right ..) o
  obtain ⟨v', hv', hiff'⟩ := hright (hlow v hv)
  cases hv.symm.trans hv'
  refine ⟨hlow v hv, fun hs hin => ?_⟩
  rw [hs] at hiff'
  exact (hiff'.1 (hiff.2 hin)).1 rfl

/-- Where the operators are applied as they are written and no missing transition is taken but
for the last byte, `Match` is right exactly about the texts without a byte from 128 on that are
no empty word, and these two are needed for every expression and text. -/
theorem match_regex_begins (h : Writes .alt e t) (s : List UInt8) :
    (e.Even → (∃ v, s.dropLast ++ v ∈ e.regex.matches') → (∀ c ∈ t ++ s, c.toNat < 128) →
      (s = [] → s ∉ e.regex.matches') → Answers e t s) ∧
    (Answers e t s → (∀ c ∈ t ++ s, c.toNat < 128) ∧ (s = [] → s ∉ e.regex.matches')) := by
  refine ⟨fun he hs hlow hempty => ?_, fun ha => ha.low h⟩
  obtain ⟨M, hM⟩ := h.match s
  refine ⟨M, fun fuel hfuel o => ?_⟩
  obtain ⟨v, hv, hiff⟩ := (hM fuel hfuel o).1 hlow
  rw [he.built.1] at hiff
  refine ⟨v, hv, hiff.trans ?_⟩
  by_cases hnil : s = []
  · refine iff_of_false (fun hb => hb.1 ?_) (hempty hnil)
    rw [hnil]
    rfl
  · exact behind_of_dropLast hs hnil

/-- The expression `(a|b)*\|` and the text `ab|`. -/
theorem match_regex_eitherBar : Answers eitherBar eitherBarText [ch 'a', ch 'b', ch '|'] := by
  have hin : [ch 'a', ch 'b'] ++ [ch '|'] ∈ eitherBar.regex.matches' := by
    refine Language.append_mem_mul (Language.mem_kstar.2 ⟨[[ch 'a'], [ch 'b']], rfl, ?_⟩) rfl
    exact List.forall_mem_cons.2 ⟨.inl rfl, List.forall_mem_singleton.2 (.inr rfl)⟩
  have hlow : ∀ c ∈ eitherBarText ++ [ch 'a', ch 'b', ch '|'], c.toNat < 128 := by
    simp [eitherBarText]
  exact (match_regex_begins eitherBar_writes _).1 eitherBar_even ⟨[ch '|'], hin⟩ hlow nofun

/-- No expression matches the empty text, not even `a*`. -/
theorem not_match_regex : ¬ ∀ e t s, Writes .alt e t → ∃ N, ∀ fuel, N ≤ fuel → ∀ o, ∃ v,
    Match o fuel t s = .ok v ∧ (v = true ↔ s ∈ e.regex.matches') := by
  intro hall
  have ha : Writes .value (.char (ch 'a')) [ch 'a'] := .ordinary (by decide)
  have hw : Writes .alt (.star (.char (ch 'a'))) ([ch 'a'] ++ [ch '*']) := .only (.one ha.star)
  have hanswers : Answers (.star (.char (ch 'a'))) ([ch 'a'] ++ [ch '*']) [] := hall _ _ [] hw
  exact (hanswers.low hw).2 rfl (Language.nil_mem_kstar _)

end Misc.Re0
