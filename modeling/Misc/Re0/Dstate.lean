import Misc.Re0.Dfa
import Mathlib.Data.List.DropRight
import Mathlib.Algebra.BigOperators.Group.List.Basic

namespace Misc.Re0
set_option autoImplicit true

/-- Puts `z` in front of the last states of `l` whose ids are greater than that of `x`. -/
def turn (h : Heap) (x : Addr) (l : List Addr) (z : Addr) : List Addr :=
  l.rdropWhile (fun y => (h.state x).id < (h.state y).id) ++
    z :: l.rtakeWhile fun y => (h.state x).id < (h.state y).id

/-- What the loop of `nfaDstate` leaves in front of the last state, `y`, when it comes to it. -/
inductive Passes (h : Heap) : List Addr → List Addr → Addr → Prop
  | one : Passes h [x] [] x
  | cons : Passes h (turn h x l z) q y → Passes h (x :: (l ++ [z])) (x :: q) y

variable {h : Heap} {x y z : Addr} {l m q a ec : List Addr}

theorem turn_nil (h : Heap) (x z : Addr) : turn h x [] z = [z] := by
  rw [turn, List.rdropWhile_nil, List.rtakeWhile_nil]
  rfl

theorem turn_greater (hy : (h.state x).id < (h.state y).id) (l : List Addr) (z : Addr) :
    turn h x (l ++ [y]) z = turn h x l z ++ [y] := by
  rw [turn, List.rdropWhile_concat_pos _ _ _ (by simpa using hy),
    List.rtakeWhile_concat_pos _ _ _ (by simpa using hy), turn, List.append_assoc]
  rfl

theorem turn_stop (hy : (h.state y).id ≤ (h.state x).id) (l : List Addr) (z : Addr) :
    turn h x (l ++ [y]) z = l ++ [y] ++ [z] := by
  rw [turn, List.rdropWhile_concat_neg _ _ _ (by simpa using hy),
    List.rtakeWhile_concat_neg _ _ _ (by simpa using hy)]

theorem turn_perm (h : Heap) (x : Addr) (l : List Addr) (z : Addr) :
    (turn h x l z).Perm (l ++ [z]) := by
  induction l using List.reverseRecOn with
  | nil =>
    rw [turn_nil]
    exact .refl _
  | append_singleton l y ih =>
    rcases Nat.lt_or_ge (h.state x).id (h.state y).id with hy | hy
    · rw [turn_greater hy]
      apply (ih.append_right [y]).trans
      rw [List.append_assoc, List.append_assoc]
      exact (List.Perm.swap y z []).append_left l
    · rw [turn_stop hy]

theorem turn_append (hy : (h.state y).id ≤ (h.state x).id) (a l : List Addr) (z : Addr) :
    turn h x (a ++ y :: l) z = a ++ y :: turn h x l z := by
  induction l using List.reverseRecOn with
  | nil => rw [turn_stop hy, turn_nil, List.append_assoc]; rfl
  | append_singleton l w ih =>
    have hassoc : a ++ y :: (l ++ [w]) = (a ++ y :: l) ++ [w] := by simp
    rcases Nat.lt_or_ge (h.state x).id (h.state w).id with hw | hw
    · rw [hassoc, turn_greater hw, ih, turn_greater hw]
      simp
    · rw [hassoc, turn_stop hw, turn_stop hw]
      simp

theorem sink_turn (h : Heap) (x : Addr) (l : List Addr) (z : Addr) (q : List Addr) :
    sink h x l.length (l ++ z :: q) = turn h x l z ++ q := by
  induction l using List.reverseRecOn generalizing q with
  | nil => rw [turn_nil]; rfl
  | append_singleton l y ih =>
    have hget : (l ++ [y] ++ z :: q).getD l.length 0 = y := by simp
    have hnext : (l ++ [y] ++ z :: q).getD (l.length + 1) 0 = z := by simp
    have hset : ((l ++ [y] ++ z :: q).set (l.length + 1) y).set l.length z = l ++ z :: y :: q :=
      by simp
    rw [List.length_append, List.length_singleton, sink, hget, hnext, hset]
    split_ifs with hy
    · rw [turn_stop hy]
      simp
    · rw [ih, turn_greater (Nat.lt_of_not_le hy), List.append_assoc]
      rfl

theorem sink_front (h : Heap) (x : Addr) (a l : List Addr) (z : Addr) :
    sink h x (a ++ x :: l).length (a ++ x :: (l ++ [z])) = (a ++ [x]) ++ turn h x l z := by
  have heq := sink_turn h x (a ++ x :: l) z []
  rw [turn_append (Nat.le_refl _)] at heq
  simpa using heq

theorem exists_passes (h : Heap) (hm : m ≠ []) : ∃ q y, Passes h m q y := by
  generalize hn : m.length = n
  induction n generalizing m with
  | zero => exact absurd (List.eq_nil_of_length_eq_zero hn) hm
  | succ n ih =>
    cases m with
    | nil => exact absurd rfl hm
    | cons x m =>
      rcases List.eq_nil_or_concat' m with rfl | ⟨l, z, rfl⟩
      · exact ⟨_, _, .one⟩
      · have hlen := (turn_perm h x l z).length_eq
        obtain ⟨q, y, hq⟩ := ih (m := turn h x l z) (by simp [turn])
          (hlen.trans (Nat.succ.inj hn))
        exact ⟨_, _, .cons hq⟩

theorem Passes.perm (hp : Passes h m q y) : (q ++ [y]).Perm m := by
  induction hp with
  | one => exact .refl _
  | cons _ ih => exact (ih.trans (turn_perm ..)).cons _

theorem Passes.loop (hp : Passes h m q y) (a : List Addr) (hash i : Nat) (acc : Bool) :
    dstateLoop h m.length a.length ⟨a ++ m, hash, i, acc⟩ =
      ⟨turn h y (a ++ q) y, hash + ((q ++ [y]).map fun s => (h.state s).id).sum, i,
        acc || (q ++ [y]).any fun s => (h.state s).accept⟩ := by
  have haccept (b c : Bool) : (if !b then c else b) = (b || c) := by cases b <;> rfl
  induction hp generalizing a hash acc with
  | @one x =>
    have hget : (a ++ [x]).getD a.length 0 = x := by simp
    have hlen : (a ++ [x]).length - 1 = a.length := by simp
    have hsink := sink_turn h x a x []
    rw [List.append_nil] at hsink
    simp only [List.length_singleton, dstateLoop, hget, hlen, hsink, haccept, List.append_nil,
      List.nil_append, List.map_cons, List.map_nil, List.sum_cons, List.sum_nil, Nat.add_zero,
      List.any_cons, List.any_nil, Bool.or_false]
  | @cons x l z q y _ ih =>
    have hget : (a ++ x :: (l ++ [z])).getD a.length 0 = x := by simp
    have hlen : (a ++ x :: (l ++ [z])).length - 1 = (a ++ x :: l).length := by simp
    have hturn := (turn_perm h x l z).length_eq
    have hsink := sink_front h x a l z
    have hrest := ih (a ++ [x]) (hash + (h.state x).id) (acc || (h.state x).accept)
    have hnext : (a ++ [x]).length = a.length + 1 := by simp
    rw [hturn, hnext] at hrest
    rw [List.length_cons, dstateLoop]
    simp only [hget, hlen, hsink, haccept]
    rw [hrest]
    simp [Nat.add_assoc, Bool.or_assoc]

theorem Passes.nfaDstate (hp : Passes h ec q y) : nfaDstate h ec =
    ⟨turn h y q y, ((q ++ [y]).map fun s => (h.state s).id).sum, 0,
      (q ++ [y]).any fun s => (h.state s).accept⟩ := by
  have hloop := hp.loop [] 0 0 false
  rw [Nat.zero_add, Bool.false_or] at hloop
  exact hloop

theorem nfaDstate_spec (h : Heap) (ec : List Addr) : (nfaDstate h ec).states.Perm ec ∧
    (nfaDstate h ec).hash = (ec.map fun s => (h.state s).id).sum ∧
    ((nfaDstate h ec).accept = true ↔ ∃ s ∈ ec, (h.state s).accept = true) := by
  by_cases hne : ec = []
  · subst hne
    exact ⟨.refl _, rfl, by simp [nfaDstate, dstateLoop]⟩
  · obtain ⟨q, y, hp⟩ := exists_passes h hne
    rw [hp.nfaDstate]
    refine ⟨(turn_perm h y q y).trans hp.perm, (hp.perm.map _).sum_eq, ?_⟩
    dsimp only
    rw [List.any_eq_true]
    exact exists_congr fun s => and_congr_left' hp.perm.mem_iff

/-! ## Reading -/

/-- The states that the loop of `nfaDstate` reads, in this order. -/
def dstateReads (h : Heap) : Nat → Nat → List Addr → List Addr
  | 0, _, _ => []
  | n + 1, k, ec =>
    let st := ec.getD k 0
    st :: dstateReads h n (k + 1) (sink h st (ec.length - 1) ec)

theorem dstateLoop_reads (h : Heap) (n k : Nat) (u : DfaState) :
    (dstateLoop h n k u).hash =
        u.hash + ((dstateReads h n k u.states).map fun s => (h.state s).id).sum ∧
      (dstateLoop h n k u).accept =
        (u.accept || (dstateReads h n k u.states).any fun s => (h.state s).accept) := by
  have haccept (b c : Bool) : (if !b then c else b) = (b || c) := by cases b <;> rfl
  induction n generalizing k u with
  | zero => exact ⟨rfl, (Bool.or_false _).symm⟩
  | succ n ih =>
    rw [dstateLoop, dstateReads]
    obtain ⟨hhash, hany⟩ := ih (k + 1)
      { u with
        accept := if !u.accept then (h.state (u.states.getD k 0)).accept else u.accept
        hash := u.hash + (h.state (u.states.getD k 0)).id
        states := sink h (u.states.getD k 0) (u.states.length - 1) u.states }
    refine ⟨hhash.trans ?_, hany.trans ?_⟩
    · rw [List.map_cons, List.sum_cons, Nat.add_assoc]
    · rw [List.any_cons, haccept, Bool.or_assoc]

/-- In front of the place of the loop no state moves. -/
theorem Passes.reads (hp : Passes h m q y) (a : List Addr) :
    dstateReads h m.length a.length (a ++ m) = q ++ [y] := by
  induction hp generalizing a with
  | @one x =>
    have hget : (a ++ [x]).getD a.length 0 = x := by simp
    rw [List.length_singleton, dstateReads]
    simp only [hget, dstateReads, List.nil_append]
  | @cons x l z q y _ ih =>
    have hget : (a ++ x :: (l ++ [z])).getD a.length 0 = x := by simp
    have hlen : (a ++ x :: (l ++ [z])).length - 1 = (a ++ x :: l).length := by simp
    have hrest := ih (a ++ [x])
    rw [(turn_perm h x l z).length_eq, @List.length_append _ a, List.length_singleton] at hrest
    rw [List.length_cons, dstateReads]
    simp only [hget, hlen, sink_front, hrest, List.cons_append]

/-- `nfaDstate` reads each state once, although it moves them while it goes over them: what it
reads is the slice in another order, with the sum of its ids and whether one of its states
accepts, and so is what it returns. -/
theorem nfaDstate_reads_once (h : Heap) (ec : List Addr) :
    (dstateReads h ec.length 0 ec).Perm ec ∧
    (nfaDstate h ec).hash = (ec.map fun s => (h.state s).id).sum ∧
    ((nfaDstate h ec).accept = true ↔ ∃ s ∈ ec, (h.state s).accept = true) ∧
    (nfaDstate h ec).states.Perm ec := by
  have hreads : (dstateReads h ec.length 0 ec).Perm ec := by
    by_cases hne : ec = []
    · rw [hne]
      exact .refl _
    · obtain ⟨q, y, hp⟩ := exists_passes h hne
      exact .trans (.of_eq (hp.reads [])) hp.perm
  obtain ⟨hhash, haccept⟩ := dstateLoop_reads h ec.length 0 ⟨ec, 0, 0, false⟩
  refine ⟨hreads, ?_, ?_, (nfaDstate_spec h ec).1⟩
  · rw [nfaDstate, hhash, Nat.zero_add, (hreads.map _).sum_eq]
  · rw [nfaDstate, haccept, Bool.false_or, List.any_eq_true]
    exact exists_congr fun s => and_congr_left' hreads.mem_iff

/-! ## Order -/

abbrev Ascending (h : Heap) (l : List Addr) : Prop :=
  l.Pairwise fun s t => (h.state s).id < (h.state t).id

/-- At most two states; or the first has the least id, and behind the next two, which have the
greatest, the ids decrease. -/
def Arranged (h : Heap) : List Addr → Prop
  | x :: u :: v :: r => Ascending h (x :: r.reverse) ∧
    ∀ s ∈ x :: r, (h.state s).id < (h.state u).id ∧ (h.state s).id < (h.state v).id
  | _ => True

theorem turn_ascending_iff (hd : ∀ s ∈ q, (h.state s).id ≠ (h.state y).id) :
    Ascending h (turn h y q y) ↔ Ascending h q := by
  induction q using List.reverseRecOn with
  | nil =>
    rw [turn_nil]
    exact iff_of_true (List.pairwise_singleton ..) .nil
  | append_singleton q w ih =>
    have hw := hd w (List.mem_append_right _ (.head _))
    have ih := ih fun s hs => hd s (List.mem_append_left _ hs)
    rcases Nat.lt_or_ge (h.state y).id (h.state w).id with hlt | hge
    · have hmem (s : Addr) : s ∈ turn h y q y ↔ s ∈ q ∨ s = y := by
        rw [(turn_perm h y q y).mem_iff, List.mem_append, List.mem_singleton]
      rw [turn_greater hlt, Ascending, Ascending, List.pairwise_append, List.pairwise_append]
      constructor
      · rintro ⟨hq, hone, hall⟩
        exact ⟨ih.1 hq, hone, fun s hs => hall s ((hmem s).2 (.inl hs))⟩
      · rintro ⟨hq, hone, hall⟩
        refine ⟨ih.2 hq, hone, fun s hs => ?_⟩
        rcases (hmem s).1 hs with hs | rfl
        · exact hall s hs
        · exact List.forall_mem_singleton.2 hlt
    · rw [turn_stop hge]
      constructor
      · intro hall
        exact (List.pairwise_append.1 hall).1
      · intro hq
        refine List.pairwise_append.2 ⟨hq, List.pairwise_singleton .., fun s hs => ?_⟩
        refine List.forall_mem_singleton.2 ?_
        have hwy : (h.state w).id < (h.state y).id := Nat.lt_of_le_of_ne hge hw
        rcases List.mem_append.1 hs with hs | hs
        · exact Nat.lt_trans ((List.pairwise_append.1 hq).2.2 s hs w (.head _)) hwy
        · rw [List.mem_singleton.1 hs]
          exact hwy

theorem turn_all (hl : ∀ s ∈ l, (h.state x).id < (h.state s).id) (z : Addr) :
    turn h x l z = z :: l := by
  have hp : ∀ s ∈ l, decide ((h.state x).id < (h.state s).id) = true :=
    fun s hs => by simpa using hl s hs
  rw [turn, List.rdropWhile_eq_nil_iff.2 hp, List.rtakeWhile_eq_self_iff.2 hp]
  rfl

theorem Passes.head (hp : Passes h (x :: m) q y) (hm : m ≠ []) : ∃ q', q = x :: q' := by
  cases hp with
  | one => exact absurd rfl hm
  | cons => exact ⟨_, rfl⟩

theorem Passes.singleton (hp : Passes h [x] q y) : q = [] := by
  have hlen := hp.perm.length_eq
  rw [List.length_append] at hlen
  exact List.eq_nil_of_length_eq_zero (Nat.succ.inj hlen)

theorem Passes.pair (hp : Passes h [x, z] q y) : q = [x] := by
  obtain ⟨q', rfl⟩ := hp.head (List.cons_ne_nil z [])
  have hlen := hp.perm.length_eq
  rw [List.length_append, List.length_cons] at hlen
  rw [List.eq_nil_of_length_eq_zero (Nat.succ.inj (Nat.succ.inj hlen))]

theorem Arranged.least {u v : Addr} {r : List Addr} (ha : Arranged h (x :: u :: v :: r)) :
    ∀ s ∈ u :: v :: r, (h.state x).id < (h.state s).id := by
  obtain ⟨hasc, hall⟩ := ha
  have hx := hall x (.head _)
  refine List.forall_mem_cons.2 ⟨hx.1, List.forall_mem_cons.2 ⟨hx.2, fun s hs => ?_⟩⟩
  exact (List.pairwise_cons.1 hasc).1 s (List.mem_reverse.2 hs)

theorem Passes.ascending_iff (hp : Passes h m q y)
    (hd : m.Pairwise fun s t => (h.state s).id ≠ (h.state t).id) :
    Ascending h q ↔ Arranged h m := by
  induction hp with
  | one => exact iff_of_true .nil trivial
  | @cons x l z q y hp ih =>
    have hperm := turn_perm h x l z
    rw [List.pairwise_cons] at hd
    have ih := ih (hd.2.perm hperm.symm fun hst => hst.symm)
    rw [Ascending, List.pairwise_cons]
    match l with
    | [] =>
      rw [turn_nil] at hp
      rw [hp.singleton]
      exact iff_of_true ⟨nofun, .nil⟩ trivial
    | [u] =>
      have hasc : Ascending h (x :: ([] : List Addr).reverse) := List.pairwise_singleton ..
      have hrhs : Arranged h (x :: ([u] ++ [z])) ↔
          (h.state x).id < (h.state u).id ∧ (h.state x).id < (h.state z).id :=
        (and_iff_right hasc).trans List.forall_mem_singleton
      rw [hrhs]
      rcases Nat.lt_or_ge (h.state x).id (h.state u).id with hu | hu
      · rw [turn_all (List.forall_mem_singleton.2 hu)] at hp
        rw [hp.pair, List.forall_mem_singleton]
        exact ⟨fun hz => ⟨hu, hz.1⟩, fun hz => ⟨hz.2, List.pairwise_singleton ..⟩⟩
      · have hstop := turn_stop hu [] z
        rw [List.nil_append] at hstop
        rw [hstop] at hp
        rw [hp.pair, List.forall_mem_singleton]
        exact iff_of_false (fun hz => absurd hz.1 (Nat.not_lt.2 hu)) fun hz =>
          absurd hz.1 (Nat.not_lt.2 hu)
    | u :: v :: l =>
      have hrhs : Arranged h (x :: (u :: v :: l ++ [z])) ↔ Ascending h (x :: z :: l.reverse) ∧
          ∀ s ∈ x :: (l ++ [z]), (h.state s).id < (h.state u).id ∧
            (h.state s).id < (h.state v).id := by
        rw [← List.reverse_concat]
        rfl
      constructor
      · rintro ⟨hx, hq⟩
        have ha := ih.1 hq
        -- the first of the rest is its least, so that `x` is less than all of them
        have hall : ∀ s ∈ u :: v :: l ++ [z], (h.state x).id < (h.state s).id := by
          generalize ht : turn h x (u :: v :: l) z = t at hp ha hperm
          have hlen : t.length = l.length + 1 + 1 + 1 := by simpa using hperm.length_eq
          match t, hlen with
          | c :: d :: e :: r, _ =>
            obtain ⟨q', rfl⟩ := hp.head (List.cons_ne_nil d _)
            have hxc := hx c (.head _)
            intro s hs
            rcases List.mem_cons.1 (hperm.mem_iff.2 hs) with rfl | hs
            · exact hxc
            · exact Nat.lt_trans hxc (ha.least s hs)
        rw [turn_all fun s hs => hall s (List.mem_append_left _ hs)] at ha
        obtain ⟨hasc, hless⟩ := ha
        have hx (s : Addr) (hs : s ∈ u :: v :: l ++ [z]) := hall s hs
        refine hrhs.2 ⟨List.pairwise_cons.2 ⟨fun s hs => hall s ?_, hasc⟩, ?_⟩
        · rcases List.mem_cons.1 hs with rfl | hs
          · exact List.mem_append_right _ (.head _)
          · exact List.mem_append_left _ (.tail _ (.tail _ (List.mem_reverse.1 hs)))
        · refine List.forall_mem_cons.2 ⟨⟨hall u (.head _), hall v (.tail _ (.head _))⟩,
            fun s hs => ?_⟩
          apply hless
          rw [List.mem_append, List.mem_singleton] at hs
          exact List.mem_cons.2 hs.symm
      · intro ha
        have hleast := ha.least
        obtain ⟨hasc, hless⟩ := hrhs.1 ha
        have hall : turn h x (u :: v :: l) z = z :: u :: v :: l :=
          turn_all (fun s hs => hleast s (List.mem_append_left _ hs)) z
        have hq : Ascending h q := by
          rw [ih, hall]
          refine ⟨(List.pairwise_cons.1 hasc).2, fun s hs => hless s (List.mem_cons_of_mem x ?_)⟩
          rw [List.mem_append, List.mem_singleton]
          exact (List.mem_cons.1 hs).symm
        refine ⟨fun s hs => hleast s ?_, hq⟩
        exact (hp.perm.trans hperm).mem_iff.1 (List.mem_append_left _ hs)

/-- `nfaDstate` puts the states in the order of their ids exactly if they come arranged. -/
theorem nfaDstate_ascending_iff (hd : ec.Pairwise fun s t => (h.state s).id ≠ (h.state t).id) :
    Ascending h (nfaDstate h ec).states ↔ Arranged h ec := by
  by_cases hne : ec = []
  · subst hne
    exact iff_of_true .nil trivial
  · obtain ⟨q, y, hp⟩ := exists_passes h hne
    have hqy := hd.perm hp.perm.symm fun hst => hst.symm
    rw [hp.nfaDstate, ← hp.ascending_iff hd]
    exact turn_ascending_iff fun s hs => (List.pairwise_append.1 hqy).2.2 s hs y (.head _)

end Misc.Re0
