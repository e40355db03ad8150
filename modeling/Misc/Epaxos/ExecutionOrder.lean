import Misc.Epaxos.Components
import Mathlib.Data.Multiset.DershowitzManna

namespace Misc.Epaxos
open Misc.Lib.Graph
set_option autoImplicit true

variable {L : CommittedLog} {ins root : Instance} {s s' : State} {fuel : Nat}
  {sort : SortSlice InstanceId} {applied : List Instance}

theorem recoveryScan_closed (prepare : ExplicitPrepare) (hs : s.cmds = L.cmds) (ins : Instance) :
    ∀ (deps : List (Option InstanceId)) (q : List Instance),
      (∀ p ∈ deps, ∃ d, p = some d.I ∧ L.Has d) →
      ∃ new, recoveryScan prepare ins deps s q = some (s, some (q ++ new)) ∧
        ∀ d ∈ new, L.Has d ∧ d.Seq < ins.Seq := by
  intro deps
  induction deps with
  | nil =>
    intro q _
    exact ⟨[], by rw [recoveryScan, List.append_nil], fun d hd => absurd hd List.not_mem_nil⟩
  | cons p deps ih =>
    intro q hdeps
    obtain ⟨d, rfl, hhas⟩ := hdeps p (List.mem_cons_self ..)
    have hget : s.getCmd d.I = some d := by rw [State.getCmd, hs, hhas.1]
    have hdep : recoveryDep prepare s d.I = some (s, true) := by
      rw [recoveryDep, hget]
      exact if_pos hhas.2
    have hstep (q) : recoveryScan prepare ins (some d.I :: deps) s q =
        recoveryScan prepare ins deps s (if d.Seq < ins.Seq then q ++ [d] else q) := by
      simp only [recoveryScan, hdep, Option.bind_some, if_true, hget]
    have hrest : ∀ p ∈ deps, ∃ d, p = some d.I ∧ L.Has d :=
      fun p hp => hdeps p (List.mem_cons_of_mem _ hp)
    rw [hstep]
    split
    · next hlt =>
      obtain ⟨new, hnew, hall⟩ := ih (q ++ [d]) hrest
      refine ⟨d :: new, by rw [hnew]; simp, ?_⟩
      intro e he
      rcases List.mem_cons.1 he with rfl | he
      · exact ⟨hhas, hlt⟩
      · exact hall e he
    · exact ih q hrest

/-- In a committed log `recoveryDeps` terminates and changes nothing. -/
theorem recoveryDeps_closed (prepare : ExplicitPrepare) (lastSeq : UInt64) (hs : s.cmds = L.cmds)
    (q : List Instance) (hq : ∀ ins ∈ q, L.Has ins) :
    ∃ n, ∀ fuel, n ≤ fuel → recoveryDeps prepare lastSeq fuel s q = some (s, true) := by
  have hwf : WellFounded fun M N : Multiset Nat => M.IsDershowitzMannaLT N :=
    Multiset.wellFounded_isDershowitzMannaLT
  generalize hm : Multiset.ofList (q.map fun ins => ins.Seq.toNat) = m
  induction m using hwf.induction generalizing q with
  | _ m ih =>
  cases q with
  | nil =>
    refine ⟨1, ?_⟩
    intro fuel hfuel
    obtain ⟨fuel, rfl⟩ := Nat.exists_eq_succ_of_ne_zero (Nat.ne_of_gt hfuel)
    rfl
  | cons ins q =>
    have hins := hq ins (List.mem_cons_self ..)
    have hq' : ∀ ins ∈ q, L.Has ins := fun i hi => hq i (List.mem_cons_of_mem _ hi)
    obtain ⟨new, hscan, hnew⟩ :=
      recoveryScan_closed prepare hs ins ins.Deps q fun _ hp => hins.get hp
    have hless (new : List Instance) (hnew : ∀ d ∈ new, d.Seq < ins.Seq) :
        Multiset.IsDershowitzMannaLT
          (Multiset.ofList ((q ++ new).map fun ins => ins.Seq.toNat)) m := by
      refine ⟨Multiset.ofList (q.map fun ins => ins.Seq.toNat),
        Multiset.ofList (new.map fun ins => ins.Seq.toNat), {ins.Seq.toNat}, ?_, ?_, ?_, ?_⟩
      · simp
      · rw [List.map_append, Multiset.coe_add]
      · rw [← hm]
        simp [Multiset.add_comm]
      · intro k hk
        rw [Multiset.mem_coe, List.mem_map] at hk
        obtain ⟨d, hd, rfl⟩ := hk
        exact ⟨_, Multiset.mem_singleton_self _, hnew d hd⟩
    by_cases hle : ins.Seq ≤ lastSeq
    · obtain ⟨n, hn⟩ := ih _ (by simpa using hless [] (by simp)) q hq' rfl
      refine ⟨n + 1, ?_⟩
      intro fuel hfuel
      obtain ⟨fuel, rfl⟩ := Nat.exists_eq_succ_of_ne_zero (Nat.ne_of_gt (Nat.lt_of_lt_of_le
        (Nat.succ_pos n) hfuel))
      rw [recoveryDeps, if_pos hle]
      exact hn fuel (Nat.le_of_succ_le_succ hfuel)
    · obtain ⟨n, hn⟩ := ih _ (hless new fun d hd => (hnew d hd).2) (q ++ new) (by
        intro i hi
        rcases List.mem_append.1 hi with hi | hi
        · exact hq' i hi
        · exact (hnew i hi).1) rfl
      refine ⟨n + 1, ?_⟩
      intro fuel hfuel
      obtain ⟨fuel, rfl⟩ := Nat.exists_eq_succ_of_ne_zero (Nat.ne_of_gt (Nat.lt_of_lt_of_le
        (Nat.succ_pos n) hfuel))
      rw [recoveryDeps, if_neg hle, hscan]
      exact hn fuel (Nat.le_of_succ_le_succ hfuel)

/-- The sequence of the `applyCmd` calls that `executeCmd` makes for `root`: the components below
`root` as `resolveScc` leaves them, from the last to the first. -/
structure Executed (sort : SortSlice InstanceId) (L : CommittedLog) (root : Instance)
    (comps : List (List InstanceId)) (applied : List Instance) : Prop where
  has : ∀ a ∈ applied, L.Has a
  first : DepsFirst L.cmds.deps comps
  reach : ∀ id, id ∈ comps.flatten ↔ Reach L.cmds.deps root.I id
  order : ∃ blocks, applied.map Instance.I = blocks.flatten.reverse ∧
    List.Forall₂ (SortedFrom sort L.cmds) blocks comps

theorem executeCmd_search (sort : SortSlice InstanceId)
    (prepare : ExplicitPrepare) (exe : Executor)
    (hs : s.cmds = L.cmds) (hroot : L.Has root) :
    ∃ n, L.committed.length ≤ n ∧ ∀ fuel, n ≤ fuel → ∃ S applied,
      Search.visit L.cmds.deps fuel root.I .empty = some S ∧
      executeCmd sort prepare fuel s exe root = some (s, true, applied) ∧
        Executed sort L root S.res applied := by
  obtain ⟨n, hn⟩ :=
    recoveryDeps_closed prepare (((exe.kv root.Y.Key).map ValueMeta.seq).getD 0) hs
    [root] fun ins hi => List.mem_singleton.1 hi ▸ hroot
  refine ⟨max n L.committed.length, Nat.le_max_right .., ?_⟩
  intro fuel hfuel
  have hsearch := components_search sort hroot.graph ((Nat.le_max_right ..).trans hfuel)
  rw [L.graph_cmds] at hsearch
  obtain ⟨ctx, blocks, S, hvisit, hcomp, -, hres, hsorted, hfirst, hreach, hsome, hvis⟩ :=
    hsearch
  have hmem (id) : id ∈ ctx.res ↔ id ∈ S.res.flatten := by
    rw [hres]
    exact (List.Perm.flatten_congr (hsorted.imp fun _ _ h => h.perm)).mem_iff
  have hget {id : InstanceId} (hid : id ∈ ctx.res) :
      ∃ a, (ctx.vis id).map EaCmd.ins = some a ∧ a.I = id ∧ L.Has a := by
    obtain ⟨c, hc⟩ := Option.isSome_iff_exists.1 (hsome id ((hmem id).1 hid))
    obtain ⟨d, hd, hhas⟩ := hroot.reach ((hreach id).1 ((hmem id).1 hid))
    have hI := L.keyed _ _ (hvis id c hc).1
    refine ⟨c.ins, by rw [hc]; rfl, hI, ?_⟩
    have hins := (hvis id c hc).1
    rw [← hd, hhas.1] at hins
    cases hins
    exact hhas
  have hids : ∀ l : List InstanceId, (∀ id ∈ l, id ∈ ctx.res) →
      (l.filterMap fun id => (ctx.vis id).map EaCmd.ins).map Instance.I = l := by
    intro l
    induction l with
    | nil =>
      intro _
      rfl
    | cons id l ih =>
      intro hl
      obtain ⟨a, ha, hI, -⟩ := hget (hl id (List.mem_cons_self ..))
      have ih := ih fun u hu => hl u (List.mem_cons_of_mem _ hu)
      simp only [List.filterMap_cons, ha, List.map_cons, hI, ih]
  refine ⟨S, ctx.applied, hvisit, ?_, ?_, hfirst, hreach, blocks, ?_, hsorted⟩
  · simp only [executeCmd, hn fuel ((Nat.le_max_left ..).trans hfuel),
      Option.bind_some, if_true, hs, hcomp, Option.map_some]
  · intro a ha
    obtain ⟨id, hid, hc⟩ := List.mem_filterMap.1 ha
    obtain ⟨b, hb, -, hhas⟩ := hget (List.mem_reverse.1 hid)
    cases hc.symm.trans hb
    exact hhas
  · rw [← hres]
    exact hids _ fun id hid => List.mem_reverse.1 hid

/-- On a committed log `executeCmd` terminates and applies the components below the root. -/
theorem executeCmd_spec (sort : SortSlice InstanceId)
    (prepare : ExplicitPrepare) (exe : Executor)
    (hs : s.cmds = L.cmds) (hroot : L.Has root) :
    ∃ n, ∀ fuel, n ≤ fuel → ∃ comps applied,
      executeCmd sort prepare fuel s exe root = some (s, true, applied) ∧
        Executed sort L root comps applied := by
  obtain ⟨n, -, hn⟩ := executeCmd_search sort prepare exe hs hroot
  refine ⟨n, ?_⟩
  intro fuel hfuel
  obtain ⟨S, applied, -, hexec, h⟩ := hn fuel hfuel
  exact ⟨S.res, applied, hexec, h⟩

namespace Executed

variable {comps : List (List InstanceId)} {a b : InstanceId}

theorem mem (h : Executed sort L root comps applied) :
    a ∈ applied.map Instance.I ↔ Reach L.cmds.deps root.I a := by
  obtain ⟨blocks, hids, hsorted⟩ := h.order
  rw [hids, List.mem_reverse, ← h.reach]
  exact (List.Perm.flatten_congr (hsorted.imp fun _ _ h => h.perm)).mem_iff

theorem nodup (h : Executed sort L root comps applied) : (applied.map Instance.I).Nodup := by
  obtain ⟨blocks, hids, hsorted⟩ := h.order
  rw [hids, List.nodup_reverse]
  exact (h.first.perm (hsorted.imp fun _ _ h => h.perm)).nodup

theorem before_dep (h : Executed sort L root comps applied) (ha : Reach L.cmds.deps root.I a)
    (hb : b ∈ L.cmds.deps a) (hne : ¬ SameScc L.cmds.deps a b) :
    [a, b].Sublist (applied.map Instance.I) := by
  have hm := h.mem.2 ha
  obtain ⟨blocks, hids, hsorted⟩ := h.order
  rw [hids] at hm ⊢
  have hfirst := h.first.perm (hsorted.imp fun _ _ h => h.perm)
  exact (hfirst.before (List.mem_reverse.1 hm) hb hne).reverse

theorem seq_le (h : Executed sort L root comps applied) (hab : SameScc L.cmds.deps a b)
    (hsub : [a, b].Sublist (applied.map Instance.I)) : L.cmds.seq a ≤ L.cmds.seq b := by
  obtain ⟨blocks, hids, hsorted⟩ := h.order
  rw [hids] at hsub
  have hfirst := h.first.perm (hsorted.imp fun _ _ h => h.perm)
  have hpair := hfirst.pairwise
    ((List.forall₂_and_left _ _).1 (hsorted.imp fun _ _ h => ⟨h.pairwise, h⟩)).1
  have hrev := hsub.reverse
  rw [List.reverse_reverse] at hrev
  exact (List.pairwise_pair.1 (hpair.sublist hrev)) hab.symm

end Executed

/-- The commands are applied after those that they depend on, except within a component, whose
commands are applied in the order of their sequence numbers. -/
structure InOrder (cmds : Cmds) (applied : List Instance) : Prop where
  deps : ∀ a ∈ applied, ∀ d, some d ∈ a.Deps → ¬ SameScc cmds.deps a.I d →
    [d, a.I].Sublist (applied.map Instance.I)
  seqs : ∀ a b, SameScc cmds.deps a.I b.I → [a, b].Sublist applied → a.Seq ≤ b.Seq

/-- Everything below `root` is one component. -/
def OneComponent (cmds : Cmds) (root : InstanceId) : Prop :=
  ∀ a, Reach cmds.deps root a → ∀ d ∈ cmds.deps a, SameScc cmds.deps a d

/-- The components are applied in the wrong order, so the commands come after those that they
depend on only if there is but one component. -/
theorem executes_in_order_iff (sort : SortSlice InstanceId) (prepare : ExplicitPrepare)
    (exe : Executor) (hs : s.cmds = L.cmds) (hroot : L.Has root) :
    ∃ n, ∀ fuel, n ≤ fuel → ∃ applied,
      executeCmd sort prepare fuel s exe root = some (s, true, applied) ∧
        (InOrder L.cmds applied ↔ OneComponent L.cmds root.I) := by
  obtain ⟨n, hn⟩ := executeCmd_spec sort prepare exe hs hroot
  refine ⟨n, ?_⟩
  intro fuel hfuel
  obtain ⟨comps, applied, hexec, h⟩ := hn fuel hfuel
  refine ⟨applied, hexec, ?_, ?_⟩
  · intro hord a ha d hd
    by_contra hne
    obtain ⟨b, hb, rfl⟩ := List.mem_map.1 (h.mem.2 ha)
    have hdep : some d ∈ b.Deps := (h.has b hb).deps.1 hd
    exact not_sublist_swap h.nodup (h.before_dep ha hd hne) (hord.deps b hb d hdep hne)
  · intro hone
    refine ⟨?_, ?_⟩
    · intro a ha d hd hne
      have hdep : d ∈ L.cmds.deps a.I := (h.has a ha).deps.2 hd
      exact absurd (hone a.I (h.mem.1 (List.mem_map_of_mem ha)) d hdep) hne
    · intro a b hab hsub
      have hle := h.seq_le hab (hsub.map Instance.I)
      have hseq {c : Instance} (hc : c ∈ applied) : L.cmds.seq c.I = c.Seq := by
        rw [Cmds.seq, (h.has c hc).1]
        rfl
      rwa [hseq (hsub.subset (by simp)), hseq (hsub.subset (by simp))] at hle

/-- The log of the instances of a list in which each lists only committed dependencies. -/
def CommittedLog.ofList (log : List Instance)
    (h : ∀ ins ∈ log, ∀ p ∈ ins.Deps, ∃ d ∈ log, p = some d.I)
    (hc : ∀ ins ∈ log, ins.State = .committed) : CommittedLog where
  cmds id := log.find? fun ins => ins.I = id
  ids := log.map Instance.I
  finite id hid := by
    obtain ⟨ins, hins⟩ := Option.isSome_iff_exists.1 hid
    have hI := List.find?_some hins
    rw [decide_eq_true_eq] at hI
    exact List.mem_map.2 ⟨ins, List.mem_of_find?_eq_some hins, hI⟩
  keyed id ins hins := by simpa using List.find?_some hins
  closed id ins hins _ dep hdep := by
    obtain ⟨d, hd, rfl⟩ := h ins (List.mem_of_find?_eq_some hins) dep hdep
    have hsome : (log.find? fun ins => ins.I = d.I).isSome :=
      List.find?_isSome.2 ⟨d, hd, by simp⟩
    obtain ⟨e, he⟩ := Option.isSome_iff_exists.1 hsome
    exact ⟨d.I, e, rfl, he, hc e (List.mem_of_find?_eq_some he)⟩

def write (i seq : UInt64) (deps : List InstanceId) : Instance :=
  ⟨⟨0, i⟩, .zero, .zero, .committed, ⟨.w, [1], some [2]⟩, seq, deps.map some⟩

def chain : CommittedLog :=
  .ofList [write 1 1 [], write 2 2 [⟨0, 1⟩]] (by decide) (by decide)

theorem executes_in_order_iff_chain : ∃ n, ∀ fuel, n ≤ fuel → ∃ applied,
    executeCmd (.insertion _) (fun _ _ _ => none) fuel
        { State.empty with cmds := chain.cmds } .empty
        (write 2 2 [⟨0, 1⟩]) = some ({ State.empty with cmds := chain.cmds }, true, applied) ∧
      (InOrder chain.cmds applied ↔ OneComponent chain.cmds ⟨0, 2⟩) :=
  executes_in_order_iff _ _ _ rfl (by decide)

/-- The command is applied before the one that it depends on. -/
theorem executes_dependent_first :
    (executeCmd (.insertion _) (fun _ _ _ => none) 10
      { State.empty with cmds := chain.cmds } .empty (write 2 2 [⟨0, 1⟩])).map (fun r => r.2) =
        some (true, [write 2 2 [⟨0, 1⟩], write 1 1 []]) ∧
      ¬ InOrder chain.cmds [write 2 2 [⟨0, 1⟩], write 1 1 []] := by
  refine ⟨by decide, ?_⟩
  intro h
  have hne : ¬ SameScc chain.cmds.deps ⟨0, 2⟩ ⟨0, 1⟩ := by
    intro hs
    have hclosed : Closed chain.cmds.deps (· = ⟨0, 1⟩) := by
      rintro a b rfl hb
      have hd : chain.cmds.deps ⟨0, 1⟩ = [] := by decide
      rw [hd] at hb
      cases hb
    exact absurd (hclosed.reach rfl hs.2) (by decide)
  exact absurd (h.deps (write 2 2 [⟨0, 1⟩]) (by simp) ⟨0, 1⟩ (by simp [write]) hne) (by decide)

end Misc.Epaxos
