import Misc.Epaxos.Execute
import Mathlib.Data.List.ReduceOption

namespace Misc.Epaxos
open Misc.Lib.Graph
set_option autoImplicit true

/-- The instances of a replica, as `setCmd` keeps them under their own ids, in which the
dependencies of committed instances are committed. -/
structure CommittedLog where
  cmds : Cmds
  ids : List InstanceId
  finite : ∀ id, (cmds id).isSome → id ∈ ids
  keyed : ∀ id ins, cmds id = some ins → ins.I = id
  closed : ∀ id ins, cmds id = some ins → ins.State = .committed →
    ∀ p ∈ ins.Deps, ∃ dep d, p = some dep ∧ cmds dep = some d ∧ d.State = .committed

def Cmds.deps (cmds : Cmds) (id : InstanceId) : List InstanceId :=
  ((cmds id).map fun ins => ins.Deps.reduceOption).getD []

theorem Cmds.mem_deps {cmds : Cmds} {id dep : InstanceId} :
    dep ∈ cmds.deps id ↔ ∃ ins, cmds id = some ins ∧ some dep ∈ ins.Deps := by
  rw [deps]
  cases cmds id with
  | none => exact iff_of_false List.not_mem_nil nofun
  | some ins =>
    rw [Option.map_some, Option.getD_some, List.reduceOption_mem_iff]
    exact ⟨fun h => ⟨ins, rfl, h⟩, fun ⟨_, h, hd⟩ => Option.some.inj h ▸ hd⟩

theorem Cmds.map_deps {cmds : Cmds} {id : InstanceId} {ins : Instance} (h : cmds id = some ins)
    (hnil : none ∉ ins.Deps) : (cmds.deps id).map some = ins.Deps := by
  rw [deps, h, Option.map_some, Option.getD_some]
  generalize ins.Deps = deps at hnil
  induction deps with
  | nil => rfl
  | cons p deps ih =>
    rw [List.mem_cons, not_or] at hnil
    obtain ⟨i, rfl⟩ := Option.ne_none_iff_exists'.1 (Ne.symm hnil.1)
    rw [List.reduceOption_cons_of_some, List.map_cons, ih hnil.2]

variable {L : CommittedLog} {ins root : Instance} {id dep : InstanceId}
  {ctx ctx' : EaContext} {fuel : Nat}

def CommittedLog.Has (L : CommittedLog) (ins : Instance) : Prop :=
  L.cmds ins.I = some ins ∧ ins.State = .committed

instance (L : CommittedLog) (ins : Instance) : Decidable (L.Has ins) :=
  inferInstanceAs (Decidable (_ ∧ _))

theorem CommittedLog.Has.deps (h : L.Has ins) : dep ∈ L.cmds.deps ins.I ↔
      some dep ∈ ins.Deps := by
  rw [Cmds.mem_deps, h.1]
  exact ⟨fun ⟨_, hi, hd⟩ => Option.some.inj hi ▸ hd, fun hd => ⟨ins, rfl, hd⟩⟩

theorem CommittedLog.Has.get (h : L.Has ins) {p : Option InstanceId} (hp : p ∈ ins.Deps) :
    ∃ d, p = some d.I ∧ L.Has d := by
  obtain ⟨dep, d, rfl, hd, hs⟩ := L.closed _ _ h.1 h.2 p hp
  obtain rfl := L.keyed _ _ hd
  exact ⟨d, rfl, hd, hs⟩

theorem CommittedLog.Has.reach (h : L.Has ins) (hr : Reach L.cmds.deps ins.I id) :
    ∃ d, d.I = id ∧ L.Has d := by
  induction hr with
  | refl => exact ⟨ins, rfl, h⟩
  | tail _ hbc ih =>
    obtain ⟨d, rfl, hd⟩ := ih
    obtain ⟨e, he, hs⟩ := hd.get (hd.deps.1 hbc)
    exact ⟨e, (Option.some.inj he).symm, hs⟩

def CommittedLog.committed (L : CommittedLog) : List InstanceId :=
  L.ids.filter fun id => (L.cmds id).any fun ins => ins.State = .committed

theorem CommittedLog.mem_committed : id ∈ L.committed ↔ ∃ ins, ins.I = id ∧ L.Has ins := by
  rw [committed, List.mem_filter, Option.any_eq_true]
  constructor
  · rintro ⟨-, ins, hins, hs⟩
    have hI := L.keyed _ _ hins
    exact ⟨ins, hI, by rw [hI]; exact hins, by simpa using hs⟩
  · rintro ⟨ins, rfl, hins, hs⟩
    exact ⟨L.finite _ (by rw [hins]; rfl), ins, hins, by simpa using hs⟩

theorem CommittedLog.closed_committed (L : CommittedLog) :
    Closed L.cmds.deps (· ∈ L.committed) := by
  intro a b ha hb
  obtain ⟨ins, rfl, hins⟩ := mem_committed.1 ha
  obtain ⟨d, hd, hs⟩ := hins.get (hins.deps.1 hb)
  exact mem_committed.2 ⟨d, (Option.some.inj hd).symm, hs⟩

/-- A finite dependency graph: instances under their own ids, whose dependencies are among
them. -/
structure DepGraph where
  cmds : Cmds
  ids : List InstanceId
  node : ∀ id ∈ ids, ∃ ins, cmds id = some ins ∧ ins.I = id
  closed : ∀ id ∈ ids, ∀ ins, cmds id = some ins → ∀ p ∈ ins.Deps, ∃ dep ∈ ids, p = some dep

variable {G : DepGraph}

def DepGraph.Has (G : DepGraph) (ins : Instance) : Prop :=
  ins.I ∈ G.ids ∧ G.cmds ins.I = some ins

instance (G : DepGraph) (ins : Instance) : Decidable (G.Has ins) :=
  inferInstanceAs (Decidable (_ ∧ _))

theorem DepGraph.Has.deps (h : G.Has ins) : (G.cmds.deps ins.I).map some = ins.Deps := by
  apply Cmds.map_deps h.2
  intro hnil
  obtain ⟨dep, -, hdep⟩ := G.closed _ h.1 ins h.2 none hnil
  cases hdep

theorem DepGraph.closed_ids (G : DepGraph) : Closed G.cmds.deps (· ∈ G.ids) := by
  intro a b ha hb
  obtain ⟨ins, hins, hd⟩ := Cmds.mem_deps.1 hb
  obtain ⟨dep, hdep, hb⟩ := G.closed a ha ins hins _ hd
  exact Option.some.inj hb ▸ hdep

theorem DepGraph.Has.get (h : G.Has ins) (hd : dep ∈ G.cmds.deps ins.I) :
    ∃ d, G.cmds dep = some d ∧ d.I = dep ∧ G.Has d := by
  have hmem := G.closed_ids _ _ h.1 hd
  obtain ⟨d, hd, rfl⟩ := G.node dep hmem
  exact ⟨d, hd, rfl, hmem, hd⟩

def CommittedLog.graph (L : CommittedLog) : DepGraph where
  cmds := L.cmds
  ids := L.committed
  node id hid := by
    obtain ⟨ins, rfl, hins⟩ := mem_committed.1 hid
    exact ⟨ins, hins.1, rfl⟩
  closed id hid ins hins p hp := by
    obtain ⟨ins', rfl, hins'⟩ := mem_committed.1 hid
    cases hins.symm.trans hins'.1
    obtain ⟨d, rfl, hd⟩ := hins'.get hp
    exact ⟨d.I, mem_committed.2 ⟨d, rfl, hd⟩, rfl⟩

theorem CommittedLog.graph_cmds (L : CommittedLog) : L.graph.cmds = L.cmds := rfl

theorem CommittedLog.Has.graph (h : L.Has root) : L.graph.Has root :=
  ⟨mem_committed.2 ⟨root, rfl, h⟩, h.1⟩

namespace EaContext

/-- The graph contains `ins` with all its dependencies, and no search has seen it. -/
def Fresh (cmds : Cmds) (ctx : EaContext) (id : InstanceId) : Prop :=
  ∃ ins, cmds id = some ins ∧ ctx.vis id = some ⟨ins, cmds.deps id, 0, 0, false⟩ ∧
    ∀ dep ∈ cmds.deps id, (ctx.vis dep).isSome

/-- A call of `collectCmds` keeps the commands that were there and adds only complete ones. -/
structure Collected (cmds : Cmds) (root : InstanceId) (ctx ctx' : EaContext) : Prop where
  keep : ∀ id, (ctx.vis id).isSome → ctx'.vis id = ctx.vis id
  new : ∀ id, ctx.vis id = none → (ctx'.vis id).isSome →
    ctx'.Fresh cmds id ∧ Reach cmds.deps root id
  root : (ctx'.vis root).isSome
  rest : ctx'.dfncnt = ctx.dfncnt ∧ ctx'.stack = ctx.stack ∧ ctx'.res = ctx.res

/-- A call of `collectCmds` for `root` has looked at the dependencies `ds`. -/
structure Collecting (cmds : Cmds) (root : Instance) (ctx₀ ctx : EaContext)
    (ds : List InstanceId) : Prop where
  keep : ∀ id, (ctx₀.vis id).isSome → ctx.vis id = ctx₀.vis id
  self : ctx.vis root.I = some ⟨root, ds, 0, 0, false⟩
  deps : ∀ dep ∈ ds, (ctx.vis dep).isSome
  new : ∀ id, ctx₀.vis id = none → id ≠ root.I → (ctx.vis id).isSome →
    ctx.Fresh cmds id ∧ Reach cmds.deps root.I id
  rest : ctx.dfncnt = ctx₀.dfncnt ∧ ctx.stack = ctx₀.stack ∧ ctx.res = ctx₀.res

@[simp] theorem modify_self (ctx : EaContext) (id : InstanceId) (f : EaCmd → EaCmd) :
    (ctx.modify id f).vis id = (ctx.vis id).map f := Function.update_self ..

theorem modify_of_ne {id id' : InstanceId} (ctx : EaContext) (f : EaCmd → EaCmd) (h : id' ≠ id) :
    (ctx.modify id f).vis id' = ctx.vis id' := Function.update_of_ne h ..

@[simp] theorem isSome_modify (ctx : EaContext) (id id' : InstanceId) (f : EaCmd → EaCmd) :
    ((ctx.modify id f).vis id').isSome = (ctx.vis id').isSome := by
  by_cases h : id' = id
  · rw [h, modify_self, Option.isSome_map]
  · rw [modify_of_ne _ _ h]

theorem Fresh.mono {cmds : Cmds} (h : ctx.Fresh cmds id)
    (hkeep : ∀ id, (ctx.vis id).isSome → (ctx'.vis id).isSome) (hid : ctx'.vis id = ctx.vis id) :
    ctx'.Fresh cmds id := by
  obtain ⟨ins, hins, hvis, hdeps⟩ := h
  exact ⟨ins, hins, hid.trans hvis, fun dep hd => hkeep dep (hdeps dep hd)⟩

theorem Collecting.insert {cmds : Cmds} (hroot : ctx.vis root.I = none) :
    Collecting cmds root ctx (ctx.insert root) [] := by
  have hne {id : InstanceId} (h : id ≠ root.I) : (ctx.insert root).vis id = ctx.vis id :=
    Function.update_of_ne h ..
  refine ⟨?_, Function.update_self .., ?_, ?_, rfl, rfl, rfl⟩
  · intro id hid
    apply hne
    intro heq
    rw [heq, hroot] at hid
    cases hid
  · intro dep hd
    cases hd
  · intro id hnone hid hsome
    rw [hne hid, hnone] at hsome
    cases hsome

theorem Collecting.append {cmds : Cmds} {ctx₀ : EaContext} {ds : List InstanceId}
    (h : Collecting cmds root ctx₀ ctx ds) (hdep : (ctx.vis dep).isSome)
    (hroot : ctx₀.vis root.I = none) :
    Collecting cmds root ctx₀
      (ctx.modify root.I fun cmd => { cmd with deps := cmd.deps ++ [dep] }) (ds ++ [dep]) := by
  refine ⟨?_, ?_, ?_, ?_, h.rest⟩
  · intro id hid
    rw [modify_of_ne, h.keep id hid]
    intro heq
    rw [heq, hroot] at hid
    cases hid
  · rw [modify_self, h.self]
    rfl
  · intro d hd
    rw [isSome_modify]
    rcases List.mem_append.1 hd with hd | hd
    · exact h.deps d hd
    · rw [List.mem_singleton.1 hd]
      exact hdep
  · intro id hnone hne hsome
    rw [isSome_modify] at hsome
    obtain ⟨hfresh, hr⟩ := h.new id hnone hne hsome
    exact ⟨hfresh.mono (fun id h => by rwa [isSome_modify]) (modify_of_ne _ _ hne), hr⟩

theorem Collecting.call {cmds : Cmds} {ctx₀ : EaContext} {ds : List InstanceId}
    (h : Collecting cmds root ctx₀ ctx ds) (hc : Collected cmds dep ctx ctx')
    (hr : dep ∈ cmds.deps root.I) : Collecting cmds root ctx₀ ctx' ds := by
  have hmono (id) (hid : (ctx.vis id).isSome) : (ctx'.vis id).isSome := by rwa [hc.keep id hid]
  refine ⟨?_, ?_, ?_, ?_, ?_⟩
  · intro id hid
    rw [hc.keep id (by rwa [h.keep id hid]), h.keep id hid]
  · rw [hc.keep _ (by rw [h.self]; rfl), h.self]
  · intro d hd
    exact hmono d (h.deps d hd)
  · intro id hnone hne hsome
    cases hvis : ctx.vis id with
    | none =>
      obtain ⟨hfresh, hreach⟩ := hc.new id hvis hsome
      exact ⟨hfresh, (Reach.edge hr).trans hreach⟩
    | some c =>
      have hid : (ctx.vis id).isSome := by rw [hvis]; rfl
      obtain ⟨hfresh, hreach⟩ := h.new id hnone hne hid
      exact ⟨hfresh.mono hmono (hc.keep id hid), hreach⟩
  · exact ⟨hc.rest.1.trans h.rest.1, hc.rest.2.1.trans h.rest.2.1, hc.rest.2.2.trans h.rest.2.2⟩

theorem Collecting.done (h : Collecting G.cmds root ctx ctx' (G.cmds.deps root.I))
    (hroot : G.Has root) : Collected G.cmds root.I ctx ctx' := by
  refine ⟨h.keep, ?_, by rw [h.self]; rfl, h.rest⟩
  intro id hnone hsome
  by_cases hid : id = root.I
  · subst hid
    exact ⟨⟨root, hroot.2, h.self, h.deps⟩, .refl⟩
  · exact h.new id hnone hid hsome

def missing (G : DepGraph) (ctx : EaContext) : Nat :=
  (G.ids.filter fun id => (ctx.vis id).isNone).length

theorem missing_lt {ctx₀ : EaContext} (hroot : G.Has root) (hnone : ctx₀.vis root.I = none)
    (hself : (ctx.vis root.I).isSome)
    (hkeep : ∀ id, (ctx₀.vis id).isSome → (ctx.vis id).isSome) :
    missing G ctx < missing G ctx₀ := by
  refine length_filter_lt ?_ hroot.1
    (by rw [hnone]; rfl) (by rwa [← Option.not_isSome, Bool.not_eq_false'])
  intro id hid
  cases h₀ : ctx₀.vis id with
  | none => rfl
  | some c =>
    have hsome := hkeep id (by rw [h₀]; rfl)
    rw [Option.isNone_iff_eq_none] at hid
    rw [hid] at hsome
    cases hsome

/-- With enough fuel `collectCmds` adds the command and what it reaches. -/
theorem collectCmds_spec (fuel : Nat) : ∀ (ctx : EaContext) (root : Instance), G.Has root →
    ctx.vis root.I = none → missing G ctx ≤ fuel →
    ∃ ctx', collectCmds G.cmds fuel ctx root = some ctx' ∧ Collected G.cmds root.I ctx ctx' := by
  induction fuel with
  | zero =>
    intro ctx root hroot hnone hle
    have hm : root.I ∈ G.ids.filter fun id => (ctx.vis id).isNone :=
      List.mem_filter.2 ⟨hroot.1, by rw [hnone]; rfl⟩
    exact absurd (List.length_pos_of_mem hm) (Nat.not_lt_of_le hle)
  | succ fuel ih =>
    intro ctx₀ root hroot hnone hle
    have hloop : ∀ (ds done : List InstanceId) (ctx : EaContext),
        Collecting G.cmds root ctx₀ ctx done → done ++ ds = G.cmds.deps root.I →
        ∃ ctx', (ds.map some).foldlM (collectDep G.cmds (collectCmds G.cmds fuel) root) ctx =
          some ctx' ∧ Collecting G.cmds root ctx₀ ctx' (G.cmds.deps root.I) := by
      intro ds
      induction ds with
      | nil =>
        intro done ctx h heq
        rw [List.append_nil] at heq
        exact ⟨ctx, rfl, heq ▸ h⟩
      | cons dep ds ihds =>
        intro done ctx h heq
        have heq' : (done ++ [dep]) ++ ds = G.cmds.deps root.I := by rw [← heq]; simp
        have hdep : dep ∈ G.cmds.deps root.I :=
          heq ▸ List.mem_append_right _ (List.mem_cons_self ..)
        rw [List.map_cons, List.foldlM_cons]
        cases hvis : ctx.vis dep with
        | some c =>
          have hsome : (ctx.vis dep).isSome := by rw [hvis]; rfl
          obtain ⟨ctx', hrest, hc⟩ := ihds _ _ (h.append hsome hnone) heq'
          exact ⟨ctx', by simpa [collectDep, hvis] using hrest, hc⟩
        | none =>
          obtain ⟨d, hd, hI, hhas⟩ := hroot.get hdep
          have hlt : missing G ctx < missing G ctx₀ :=
            missing_lt hroot hnone (by rw [h.self]; rfl) fun id hid => by rwa [h.keep id hid]
          obtain ⟨ctx₁, hcall, hcol⟩ := ih ctx d hhas (by rw [hI, hvis]) (by omega)
          rw [hI] at hcol
          obtain ⟨ctx', hrest, hc⟩ := ihds _ _ ((h.call hcol hdep).append hcol.root hnone) heq'
          exact ⟨ctx', by simpa [collectDep, hvis, hd, hcall] using hrest, hc⟩
    obtain ⟨ctx', hfold, hc⟩ := hloop (G.cmds.deps root.I) [] _ (.insert hnone) rfl
    rw [hroot.deps] at hfold
    exact ⟨ctx', hfold, hc.done hroot⟩

end EaContext

def Cmds.seq (cmds : Cmds) (id : InstanceId) : UInt64 := ((cmds id).map Instance.Seq).getD 0

/-- The list is what `sort.Slice` makes of a component of the log. -/
def SortedFrom (sort : SortSlice InstanceId) (cmds : Cmds) (b C : List InstanceId) : Prop :=
  ∃ seq : InstanceId → UInt64, (∀ id ∈ C, seq id = cmds.seq id) ∧ b = sortScc sort seq C

theorem SortedFrom.perm {sort : SortSlice InstanceId} {cmds : Cmds} {b C : List InstanceId}
    (h : SortedFrom sort cmds b C) : b.Perm C := by
  obtain ⟨seq, -, rfl⟩ := h
  rw [sortScc]
  split
  · exact sort.perm ..
  · exact .refl _

theorem SortedFrom.pairwise {sort : SortSlice InstanceId} {cmds : Cmds} {b C : List InstanceId}
    (h : SortedFrom sort cmds b C) : b.Pairwise fun i j => cmds.seq j ≤ cmds.seq i := by
  have hperm := h.perm
  obtain ⟨seq, hseq, rfl⟩ := h
  have hsorted : (sortScc sort seq C).Pairwise fun i j => seq j ≤ seq i := by
    rw [sortScc]
    split
    · apply (sort.sorted _ C (.byKey seq)).imp
      intro i j hij
      rwa [decide_eq_false_iff_not, UInt64.not_lt] at hij
    · next hlen =>
      match C with
      | [] => exact .nil
      | [id] => exact List.pairwise_singleton ..
      | _ :: _ :: _ => exact absurd (by simp) hlen
  apply hsorted.imp_of_mem
  intro i j hi hj hij
  rwa [hseq i (hperm.subset hi), hseq j (hperm.subset hj)] at hij

namespace EaContext

/-- The nodes of the graph and the numbers of the search agree, and the components found are
those of the search, sorted. -/
structure Sim (sort : SortSlice InstanceId) (cmds : Cmds) (ctx : EaContext)
    (S : Search InstanceId) : Prop where
  cmd : ∀ id c, ctx.vis id = some c → cmds id = some c.ins ∧ c.deps = cmds.deps id ∧
    c.dfn = S.dfn id ∧ c.low = S.low id ∧ c.instk = S.instk id
  closed : ∀ id c, ctx.vis id = some c → ∀ dep ∈ c.deps, (ctx.vis dep).isSome
  dfncnt : ctx.dfncnt = S.cnt
  stack : ctx.stack = S.stack
  stacked : ∀ id ∈ ctx.stack, (ctx.vis id).isSome
  res : ∃ blocks, ctx.res = blocks.flatten ∧ List.Forall₂ (SortedFrom sort cmds) blocks S.res

def SameDom (ctx ctx' : EaContext) : Prop := ∀ id, (ctx'.vis id).isSome = (ctx.vis id).isSome

variable {cmds : Cmds} {S S' : Search InstanceId} {sort : SortSlice InstanceId}

theorem Sim.seq (h : Sim sort cmds ctx S) (hid : (ctx.vis id).isSome) :
    ctx.seq id = cmds.seq id := by
  obtain ⟨c, hc⟩ := Option.isSome_iff_exists.1 hid
  rw [EaContext.seq, Cmds.seq, hc, (h.cmd id c hc).1]
  rfl

theorem Sim.deps {c : EaCmd} (h : Sim sort cmds ctx S) (hc : ctx.vis id = some c) :
    c.deps = cmds.deps id := (h.cmd id c hc).2.1

theorem Sim.modify {v : InstanceId} (h : Sim sort cmds ctx S) (f : EaCmd → EaCmd)
    (hins : ∀ c, (f c).ins = c.ins ∧ (f c).deps = c.deps)
    (hself : ∀ c, c.dfn = S.dfn v → c.low = S.low v → c.instk = S.instk v →
      (f c).dfn = S'.dfn v ∧ (f c).low = S'.low v ∧ (f c).instk = S'.instk v)
    (hne : ∀ id, id ≠ v → S'.dfn id = S.dfn id ∧ S'.low id = S.low id ∧ S'.instk id = S.instk id)
    (hcnt : ctx'.dfncnt = S'.cnt) (hstack : ctx'.stack = S'.stack)
    (hstacked : ∀ id ∈ ctx'.stack, (ctx.vis id).isSome) (hvis : ctx'.vis = (ctx.modify v f).vis)
    (hres : ctx'.res = ctx.res) (hsres : S'.res = S.res) : Sim sort cmds ctx' S' := by
  have hdom (id) : (ctx'.vis id).isSome = (ctx.vis id).isSome := by rw [hvis, isSome_modify]
  refine ⟨?_, ?_, hcnt, hstack, ?_, ?_⟩
  · intro id c hc
    rw [hvis] at hc
    by_cases hid : id = v
    · subst hid
      rw [modify_self, Option.map_eq_some_iff] at hc
      obtain ⟨c, hc, rfl⟩ := hc
      obtain ⟨hi, hd, hdfn, hlow, hstk⟩ := h.cmd id c hc
      rw [(hins c).1, (hins c).2]
      exact ⟨hi, hd, hself c hdfn hlow hstk⟩
    · rw [modify_of_ne _ _ hid] at hc
      obtain ⟨h₁, h₂, h₃⟩ := hne id hid
      rw [h₁, h₂, h₃]
      exact h.cmd id c hc
  · intro id c hc dep hd
    rw [hdom]
    rw [hvis] at hc
    by_cases hid : id = v
    · subst hid
      rw [modify_self, Option.map_eq_some_iff] at hc
      obtain ⟨c, hc, rfl⟩ := hc
      rw [(hins c).2] at hd
      exact h.closed id c hc dep hd
    · rw [modify_of_ne _ _ hid] at hc
      exact h.closed id c hc dep hd
  · intro id hid
    rw [hdom]
    exact hstacked id hid
  · rw [hres, hsres]
    exact h.res

theorem Sim.enter (h : Sim sort cmds ctx S) (hv : (ctx.vis id).isSome) :
    Sim sort cmds (ctx.enter id) (S.push id) := by
  refine h.modify (fun c =>
    { c with dfn := ctx.dfncnt + 1, low := ctx.dfncnt + 1, instk := true })
    (fun _ => ⟨rfl, rfl⟩) ?_ ?_ (congrArg (· + 1) h.dfncnt) (congrArg (· ++ [id]) h.stack) ?_
    rfl rfl rfl
  · intro c _ _ _
    simp [Search.push, h.dfncnt]
  · intro u hu
    simp [Search.push, hu]
  · intro u hu
    rcases List.mem_append.1 hu with hu | hu
    · exact h.stacked u hu
    · rw [List.mem_singleton.1 hu]
      exact hv

theorem Sim.lower (h : Sim sort cmds ctx S) (id : InstanceId) (k : Nat) :
    Sim sort cmds (ctx.lower id k) (S.lower id k) := by
  refine h.modify (fun c => { c with low := min c.low k }) (fun _ => ⟨rfl, rfl⟩) ?_ ?_ h.dfncnt
    h.stack h.stacked rfl rfl rfl
  · intro c hdfn hlow hstk
    simp [Search.lower, hdfn, hlow, hstk]
  · intro u hu
    simp [Search.lower, hu]

theorem Sim.popScc (h : Sim sort cmds ctx S) (hv : S.dfn id = S.low id) :
    Sim sort cmds (ctx.popScc sort id) (S.close id) ∧ SameDom ctx (ctx.popScc sort id) := by
  have hdom : SameDom ctx (ctx.popScc sort id) := by
    intro u
    dsimp only [EaContext.popScc]
    split
    · exact Option.isSome_map
    · rfl
  refine ⟨?_, hdom⟩
  rw [Search.close, if_pos hv, ← h.stack]
  refine ⟨?_, ?_, h.dfncnt, rfl, ?_, ?_⟩
  · intro u c hc
    dsimp only [EaContext.popScc] at hc ⊢
    split at hc
    · next hm =>
      obtain ⟨c₀, hc₀, rfl⟩ := Option.map_eq_some_iff.1 hc
      obtain ⟨hi, hd, hdfn, hlow, -⟩ := h.cmd u c₀ hc₀
      exact ⟨hi, hd, hdfn, hlow, by rw [if_pos hm]⟩
    · next hm =>
      rw [if_neg hm]
      exact h.cmd u c hc
  · intro u c hc dep hd
    rw [hdom]
    dsimp only [EaContext.popScc] at hc
    split at hc
    · obtain ⟨c₀, hc₀, rfl⟩ := Option.map_eq_some_iff.1 hc
      exact h.closed u c₀ hc₀ dep hd
    · exact h.closed u c hc dep hd
  · intro u hu
    rw [hdom]
    exact h.stacked u (List.mem_of_mem_take hu)
  · obtain ⟨blocks, hres, hsorted⟩ := h.res
    refine ⟨blocks ++ [sortScc sort ctx.seq (ctx.stack.drop (stackIndex id ctx.stack))], ?_,
      List.rel_append hsorted (.cons ⟨ctx.seq, ?_, rfl⟩ .nil)⟩
    · rw [List.flatten_append, List.flatten_singleton, ← hres]
      rfl
    · intro u hu
      exact h.seq (h.stacked u (List.mem_of_mem_drop hu))

theorem Sim.close (h : Sim sort cmds ctx S) (hv : (ctx.vis id).isSome) :
    ∃ ctx', ctx.closeScc sort id = some ctx' ∧ Sim sort cmds ctx' (S.close id) ∧
      SameDom ctx ctx' := by
  obtain ⟨c, hc⟩ := Option.isSome_iff_exists.1 hv
  obtain ⟨-, -, hdfn, hlow, -⟩ := h.cmd id c hc
  rw [closeScc, hc, Option.map_some, hdfn, hlow]
  by_cases heq : S.dfn id = S.low id
  · rw [if_pos heq]
    exact ⟨_, rfl, h.popScc heq⟩
  · rw [if_neg heq, Search.close, if_neg heq]
    exact ⟨ctx, rfl, h, fun _ => rfl⟩

/-- `resolveScc` follows Tarjan's search. -/
theorem resolveScc_sim (fuel : Nat) : ∀ (ctx : EaContext) (S S' : Search InstanceId)
    (v : InstanceId), Sim sort cmds ctx S → (ctx.vis v).isSome →
      Search.visit cmds.deps fuel v S = some S' →
    ∃ ctx', resolveScc sort fuel ctx v = some ctx' ∧ Sim sort cmds ctx' S' ∧
      SameDom ctx ctx' := by
  induction fuel with
  | zero =>
    intro ctx S S' v _ _ hvisit
    cases hvisit
  | succ fuel ih =>
    intro ctx S S' v h hv hvisit
    have hloop : ∀ (ds : List InstanceId) (ctx : EaContext) (S S' : Search InstanceId),
        Sim sort cmds ctx S → (∀ d ∈ ds, (ctx.vis d).isSome) →
        ds.foldlM (Search.relax (Search.visit cmds.deps fuel) v) S = some S' →
        ∃ ctx', ds.foldlM (resolveDep (resolveScc sort fuel) v) ctx = some ctx' ∧
          Sim sort cmds ctx' S' ∧ SameDom ctx ctx' := by
      intro ds
      induction ds with
      | nil =>
        intro ctx S S' h _ hfold
        cases hfold
        exact ⟨ctx, rfl, h, fun _ => rfl⟩
      | cons d ds ihds =>
        intro ctx S S' h hds hfold
        rw [List.foldlM_cons] at hfold
        obtain ⟨S₁, hrelax, hfold⟩ := Option.bind_eq_some_iff.1 hfold
        have hd := hds d (List.mem_cons_self ..)
        have hstep : ∃ ctx₁, resolveDep (resolveScc sort fuel) v ctx d = some ctx₁ ∧
            Sim sort cmds ctx₁ S₁ ∧ SameDom ctx ctx₁ := by
          obtain ⟨c, hc⟩ := Option.isSome_iff_exists.1 hd
          obtain ⟨-, -, hdfn, -, hstk⟩ := h.cmd d c hc
          rw [resolveDep, hc, Option.bind_some, hdfn, hstk]
          rw [Search.relax] at hrelax
          split at hrelax
          · obtain ⟨S₂, hvis, rfl⟩ := Option.map_eq_some_iff.1 hrelax
            obtain ⟨ctx₂, hcall, hsim, hdom⟩ := ih ctx S S₂ d h hd hvis
            obtain ⟨c₂, hc₂⟩ := Option.isSome_iff_exists.1 ((hdom d).trans hd)
            refine ⟨ctx₂.lower v (S₂.low d), ?_, hsim.lower v _, ?_⟩
            · rw [if_pos ‹_›, hcall, Option.bind_some, hc₂, Option.map_some,
                (hsim.cmd d c₂ hc₂).2.2.2.1]
            · intro u
              exact (isSome_modify ..).trans (hdom u)
          · split at hrelax
            · cases hrelax
              rw [if_neg ‹_›, if_pos ‹_›]
              exact ⟨_, rfl, h.lower v _, fun u => isSome_modify ..⟩
            · cases hrelax
              rw [if_neg ‹_›, if_neg ‹_›]
              exact ⟨_, rfl, h, fun _ => rfl⟩
        obtain ⟨ctx₁, hstep, hsim, hdom⟩ := hstep
        obtain ⟨ctx', hrest, hsim', hdom'⟩ := ihds ctx₁ S₁ S' hsim
          (fun u hu => (hdom u).trans (hds u (List.mem_cons_of_mem _ hu))) hfold
        refine ⟨ctx', ?_, hsim', fun u => (hdom' u).trans (hdom u)⟩
        rw [List.foldlM_cons, hstep]
        exact hrest
    rw [Search.visit] at hvisit
    obtain ⟨S₁, hfold, rfl⟩ := Option.map_eq_some_iff.1 hvisit
    obtain ⟨c, hc⟩ := Option.isSome_iff_exists.1 hv
    have henter (u) : ((ctx.enter v).vis u).isSome = (ctx.vis u).isSome := isSome_modify ..
    obtain ⟨ctx₁, hfold', hsim, hdom⟩ :=
      hloop (cmds.deps v) (ctx.enter v) (S.push v) S₁ (h.enter hv)
      (fun d hd => (henter d).trans (h.closed v c hc d (h.deps hc ▸ hd))) hfold
    obtain ⟨ctx', hclose, hsim', hdom'⟩ := hsim.close
      ((hdom v).trans ((henter v).trans hv))
    refine ⟨ctx', ?_, hsim', fun u => (hdom' u).trans ((hdom u).trans (henter u))⟩
    rw [resolveScc, hc, Option.bind_some, h.deps hc, hfold', Option.bind_some, hclose]

end EaContext

/-- `collectCmds` and `resolveScc` terminate, and leave the components below the root in an
order in which each comes after those that it depends on. -/
theorem components_search (sort : SortSlice InstanceId) (hroot : G.Has root)
    (hfuel : G.ids.length ≤ fuel) :
    ∃ ctx blocks S, Search.visit G.cmds.deps fuel root.I .empty = some S ∧
      components sort fuel G.cmds root = some ctx ∧ ctx.stack = [] ∧
      ctx.res = blocks.flatten ∧ List.Forall₂ (SortedFrom sort G.cmds) blocks S.res ∧
      DepsFirst G.cmds.deps S.res ∧ (∀ id, id ∈ S.res.flatten ↔ Reach G.cmds.deps root.I id) ∧
      (∀ id ∈ S.res.flatten, (ctx.vis id).isSome) ∧
      ∀ id c, ctx.vis id = some c → G.cmds id = some c.ins ∧ c.instk = false := by
  obtain ⟨ctx₁, hcollect, hcol⟩ := EaContext.collectCmds_spec fuel EaContext.new root hroot rfl
    ((List.length_filter_le ..).trans hfuel)
  obtain ⟨S, hvisit, hstack, hinstk, hcomps, hreach⟩ :=
    Search.tarjan_spec G.closed_ids hroot.1 hfuel
  have hfresh {id : InstanceId} (hid : (ctx₁.vis id).isSome) : ctx₁.Fresh G.cmds id :=
    (hcol.new id rfl hid).1
  have hsim : EaContext.Sim sort G.cmds ctx₁ Search.empty := by
    obtain ⟨hcnt, hst, hres⟩ := hcol.rest
    refine ⟨?_, ?_, hcnt, hst, ?_, ⟨[], hres, .nil⟩⟩
    · intro id c hc
      obtain ⟨ins, hins, hvis, -⟩ := hfresh (by rw [hc]; rfl)
      cases hc.symm.trans hvis
      exact ⟨hins, rfl, rfl, rfl, rfl⟩
    · intro id c hc dep hd
      obtain ⟨ins, -, hvis, hdeps⟩ := hfresh (by rw [hc]; rfl)
      cases hc.symm.trans hvis
      exact hdeps dep hd
    · intro id hid
      rw [hst] at hid
      cases hid
  obtain ⟨ctx, hresolve, hsim', hdom⟩ :=
    EaContext.resolveScc_sim fuel ctx₁ _ S root.I hsim hcol.root hvisit
  obtain ⟨blocks, hres, hsorted⟩ := hsim'.res
  refine ⟨ctx, blocks, S, hvisit, ?_, hsim'.stack.trans hstack, hres, hsorted,
    hcomps, hreach, ?_, ?_⟩
  · rw [components, hcollect, Option.bind_some, hresolve]
  · intro id hid
    have hclosed : Closed G.cmds.deps fun id => (ctx.vis id).isSome := by
      intro a b ha hb
      obtain ⟨c, hc⟩ := Option.isSome_iff_exists.1 ha
      exact hsim'.closed a c hc b (hsim'.deps hc ▸ hb)
    exact hclosed.reach ((hdom root.I).trans hcol.root) ((hreach id).1 hid)
  · intro id c hc
    obtain ⟨hins, -, -, -, hstk⟩ := hsim'.cmd id c hc
    exact ⟨hins, hstk.trans (hinstk id)⟩

end Misc.Epaxos
