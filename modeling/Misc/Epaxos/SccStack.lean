import Mathlib.Data.List.Induction
import Misc.Epaxos.Components

namespace Misc.Epaxos
open Misc.Lib.Graph
set_option autoImplicit true

/-- The commands of the graph under their ids. -/
abbrev EaVis := InstanceId → Option EaCmd

/-- An `eacontext` with the slice `stack` as it is: the array behind it, and its length. -/
structure EaSlices where
  vis : EaVis
  dfncnt : Nat
  array : List InstanceId
  len : Nat
  res : List InstanceId
  le : len ≤ array.length

namespace EaSlices

/-- The context whose stack is the slice. -/
def view (ctx : EaSlices) : EaContext := ⟨ctx.vis, ctx.dfncnt, ctx.array.take ctx.len, ctx.res⟩

def ofContext (ctx : EaContext) : EaSlices :=
  ⟨ctx.vis, ctx.dfncnt, ctx.stack, ctx.stack.length, ctx.res, Nat.le_refl _⟩

def modify (ctx : EaSlices) (id : InstanceId) (f : EaCmd → EaCmd) : EaSlices :=
  { ctx with vis := Function.update ctx.vis id ((ctx.vis id).map f) }

/-- `append` to `stack`, which writes into the array where there is room. -/
def push (ctx : EaSlices) (cmd : InstanceId) : EaSlices :=
  { ctx with
    array := ctx.array.take ctx.len ++ cmd :: ctx.array.drop (ctx.len + 1)
    len := ctx.len + 1
    le := by
      have hle := ctx.le
      rw [List.length_append, List.length_take, List.length_cons]
      omega }

def enter (ctx : EaSlices) (cmd : InstanceId) : EaSlices :=
  let n := ctx.dfncnt + 1
  { (ctx.modify cmd fun c => { c with dfn := n, low := n, instk := true }).push
    cmd with dfncnt := n }

def lower (ctx : EaSlices) (cmd : InstanceId) (k : Nat) : EaSlices :=
  ctx.modify cmd fun c => { c with low := min c.low k }

def resolveDep (rec : EaSlices → InstanceId → Option EaSlices) (cmd : InstanceId)
    (ctx : EaSlices) (dep : InstanceId) : Option EaSlices :=
  (ctx.vis dep).bind fun d =>
    if d.dfn = 0 then
      (rec ctx dep).bind fun ctx => (ctx.vis dep).map fun d => ctx.lower cmd d.low
    else if d.instk then some (ctx.lower cmd d.dfn)
    else some ctx

def offStack (vis : EaVis) (id : InstanceId) : EaVis :=
  Function.update vis id ((vis id).map fun c => { c with instk := false })

/-- The loop of `resolveScc` that looks for `cmd` in the stack, from the index below `n` down. It
gives the index of `cmd`; `none` is an index out of range. -/
def unwind (cmd : InstanceId) (array : List InstanceId) : Nat → EaVis → Option (EaVis × Nat)
  | 0, _ => none
  | n + 1, vis => array[n]?.bind fun u =>
      if u = cmd then some (offStack vis u, n) else unwind cmd array n (offStack vis u)

theorem unwind_lt {cmd : InstanceId} {array : List InstanceId} {n m : Nat} {vis vis' : EaVis}
    (h : unwind cmd array n vis = some (vis', m)) : m < n := by
  induction n generalizing vis with
  | zero => cases h
  | succ n ih =>
    obtain ⟨u, -, h⟩ := Option.bind_eq_some_iff.1 h
    split at h
    · cases h
      exact Nat.lt_succ_self _
    · exact Nat.lt_succ_of_lt (ih h)

/-- The component, which is the stack from `n` on, is sorted in the array of the stack and
copied from there to `res`. -/
def takeScc (sort : SortSlice InstanceId) (ctx : EaSlices) (vis : EaVis) (n : Nat)
    (hn : n < ctx.len) : EaSlices :=
  let array := ctx.array.take n ++
    sortScc sort ctx.view.seq ((ctx.array.take ctx.len).drop n) ++ ctx.array.drop ctx.len
  { ctx with
    vis
    array
    len := n
    res := ctx.res ++ (array.take ctx.len).drop n
    le := by
      have hle := ctx.le
      rw [List.length_append, List.length_append, List.length_take]
      omega }

def popScc (sort : SortSlice InstanceId) (ctx : EaSlices) (cmd : InstanceId) : Option EaSlices :=
  match h : unwind cmd ctx.array ctx.len ctx.vis with
  | some (vis, n) => some (ctx.takeScc sort vis n (unwind_lt h))
  | none => none

def closeScc (sort : SortSlice InstanceId) (ctx : EaSlices) (cmd : InstanceId) :
    Option EaSlices :=
  (ctx.vis cmd).bind fun c => if c.dfn = c.low then ctx.popScc sort cmd else some ctx

def resolveScc (sort : SortSlice InstanceId) : Nat → EaSlices → InstanceId → Option EaSlices
  | 0, _, _ => none
  | fuel + 1, ctx, cmd =>
    (ctx.vis cmd).bind fun c =>
      (c.deps.foldlM (resolveDep (resolveScc sort fuel) cmd) (ctx.enter cmd)).bind fun ctx =>
        ctx.closeScc sort cmd

/-- `collectCmds` and `resolveScc` for `root`, as `executeCmd` calls them. -/
def components (sort : SortSlice InstanceId) (fuel : Nat) (cmds : Cmds) (root : Instance) :
    Option EaSlices :=
  (EaContext.new.collectCmds cmds fuel root).bind fun ctx =>
    (ofContext ctx).resolveScc sort fuel root.I

section
variable {sort : SortSlice InstanceId} {ctx ctx' : EaContext}
  {c : EaSlices} {id cmd : InstanceId}
  {fuel : Nat}

theorem view_ofContext (ctx : EaContext) : (ofContext ctx).view = ctx := by
  rw [view, ofContext, List.take_length]

theorem view_enter (c : EaSlices) (cmd : InstanceId) :
    (c.enter cmd).view = c.view.enter cmd := by
  have hlen : (c.array.take c.len).length = c.len := List.length_take_of_le c.le
  have hstack : (c.array.take c.len ++ cmd :: c.array.drop (c.len + 1)).take (c.len + 1) =
      c.array.take c.len ++ [cmd] := by
    rw [List.take_append, hlen, List.take_of_length_le (by omega), Nat.add_sub_cancel_left]
    rfl
  exact congrArg (EaContext.mk _ _ · _) hstack

theorem view_lower (c : EaSlices) (cmd : InstanceId) (k : Nat) :
    (c.lower cmd k).view = c.view.lower cmd k := rfl

theorem take_snoc {array t : List α} {u : α} {n : Nat} (hn : n ≤ array.length)
    (h : array.take n = t ++ [u]) :
    n = t.length + 1 ∧ array[t.length]? = some u ∧ array.take t.length = t := by
  have hlen := congrArg List.length h
  rw [List.length_take_of_le hn, List.length_append, List.length_singleton] at hlen
  refine ⟨hlen, ?_, ?_⟩
  · have hget : (array.take n)[t.length]? = some u := by rw [h]; simp
    rwa [List.getElem?_take_of_lt (by omega)] at hget
  · have htake := congrArg (List.take t.length) h
    rwa [List.take_take, Nat.min_eq_left (by omega), List.take_left] at htake

theorem unwind_eq {array pre s : List InstanceId} {n : Nat} (hn : n ≤ array.length)
    (h : array.take n = pre ++ cmd :: s) (hs : cmd ∉ s) (vis : EaVis) :
    unwind cmd array n vis = some (fun id => if id ∈ cmd :: s then
      (vis id).map fun c => { c with instk := false } else vis id, pre.length) := by
  induction s using List.reverseRecOn generalizing n vis with
  | nil =>
    obtain ⟨rfl, hget, -⟩ := take_snoc hn h
    rw [unwind, hget, Option.bind_some, if_pos rfl]
    congr 2
    funext id
    simp only [List.mem_singleton, offStack, Function.update_apply]
    split_ifs with hid
    · rw [hid]
    · rfl
  | append_singleton s u ih =>
    rw [List.mem_append, not_or, List.mem_singleton] at hs
    obtain ⟨rfl, hget, htake⟩ := take_snoc (t := pre ++ cmd :: s) (u := u) hn (by rw [h]; simp)
    have hrest := ih (Nat.le_of_succ_le hn) htake hs.1 (offStack vis u)
    rw [unwind, hget, Option.bind_some, if_neg (Ne.symm hs.2), hrest]
    congr 2
    funext id
    by_cases hid : id = u
    · subst hid
      have hm : id ∈ cmd :: (s ++ [id]) := by simp
      rw [if_pos hm, offStack, Function.update_self, Option.map_map]
      split_ifs <;> rfl
    · have hm : id ∈ cmd :: (s ++ [u]) ↔ id ∈ cmd :: s := by simp [hid]
      simp only [hm, offStack, Function.update_of_ne hid]

theorem length_sortScc (sort : SortSlice InstanceId) (seq : InstanceId → UInt64)
    (scc : List InstanceId) : (sortScc sort seq scc).length = scc.length := by
  rw [sortScc]
  split_ifs
  · exact (sort.perm ..).length_eq
  · rfl

theorem exists_last [DecidableEq α] {l : List α} {a : α} (h : a ∈ l) :
    ∃ pre s, l = pre ++ a :: s ∧ a ∉ s := by
  obtain ⟨s, pre, hrev, hs⟩ := List.eq_append_cons_of_mem (List.mem_reverse.2 h)
  refine ⟨pre.reverse, s.reverse, ?_, fun hm => hs (List.mem_reverse.1 hm)⟩
  have heq := congrArg List.reverse hrev
  rwa [List.reverse_reverse, List.reverse_append, List.reverse_cons, List.append_assoc,
    List.singleton_append] at heq

theorem view_popScc (c : EaSlices) (h : cmd ∈ c.view.stack) :
    ∃ c', c.popScc sort cmd = some c' ∧ c'.view = c.view.popScc sort cmd := by
  obtain ⟨pre, s, hstack, hs⟩ := exists_last h
  have hunwind := unwind_eq c.le hstack hs c.vis
  have hlt : pre.length < c.len := unwind_lt hunwind
  have hindex : stackIndex cmd c.view.stack = pre.length := by rw [hstack, stackIndex_eq hs]
  have hscc : c.view.stack.drop pre.length = cmd :: s := by rw [hstack, List.drop_left]
  have htake : c.array.take pre.length = c.view.stack.take pre.length := by
    rw [view, List.take_take, Nat.min_eq_left hlt.le]
  have hvis : (c.view.popScc sort cmd).vis = fun id => if id ∈ cmd :: s then
      (c.vis id).map fun c => { c with instk := false } else c.vis id := by
    rw [EaContext.popScc, hindex, hscc]
    rfl
  rw [← hvis] at hunwind
  refine ⟨c.takeScc sort (c.view.popScc sort cmd).vis pre.length hlt, ?_, ?_⟩
  · rw [popScc]
    split
    · next hsome =>
      cases hsome.symm.trans hunwind
      rfl
    · next hnone => cases hnone.symm.trans hunwind
  · have hpre : (c.array.take pre.length).length = pre.length :=
      List.length_take_of_le (hlt.le.trans c.le)
    have hsorted : (sortScc sort c.view.seq (cmd :: s)).length = c.len - pre.length := by
      rw [length_sortScc, ← hscc, List.length_drop, view, List.length_take_of_le c.le]
    have hcopy : ((c.array.take pre.length ++ sortScc sort c.view.seq (cmd :: s) ++
        c.array.drop c.len).take c.len).drop pre.length =
          sortScc sort c.view.seq (cmd :: s) := by
      rw [List.take_left', List.drop_left' hpre]
      rw [List.length_append, hpre, hsorted]
      omega
    have hrest : (c.array.take pre.length ++ sortScc sort c.view.seq (cmd :: s) ++
        c.array.drop c.len).take pre.length = c.view.stack.take pre.length := by
      rw [List.append_assoc, List.take_left' hpre, htake]
    change EaContext.mk _ _ _ _ = EaContext.mk _ _ _ _
    rw [hindex, hscc]
    change (c.array.take c.len).drop pre.length = cmd :: s at hscc
    simp only [takeScc, hscc, hrest, hcopy, hvis]
    rfl

theorem view_closeScc (h : cmd ∈ c.view.stack) (hclose : c.view.closeScc sort cmd = some ctx') :
    ∃ c', c.closeScc sort cmd = some c' ∧ c'.view = ctx' := by
  obtain ⟨n, hn, hctx⟩ := Option.map_eq_some_iff.1 hclose
  rw [closeScc, show c.vis cmd = some n from hn, Option.bind_some]
  split_ifs at hctx ⊢
  · obtain ⟨c', hpop, hview⟩ := @view_popScc sort cmd c h
    exact ⟨c', hpop, hview.trans hctx⟩
  · exact ⟨c, rfl, hctx⟩

theorem closeScc_stack {pre s : List InstanceId} (h : ctx.closeScc sort cmd = some ctx')
    (hstack : ctx.stack = pre ++ cmd :: s) : pre <+: ctx'.stack := by
  obtain ⟨n, -, rfl⟩ := Option.map_eq_some_iff.1 h
  split_ifs
  · have hle : pre.length ≤ stackIndex cmd ctx.stack := by
      have hrev : ctx.stack.reverse = s.reverse ++ cmd :: pre.reverse := by
        rw [hstack]
        simp
      have htake : (ctx.stack.reverse.takeWhile (· ≠ cmd)).length ≤ s.length := by
        rw [hrev, List.takeWhile_append]
        split_ifs
        · simp
        · exact (List.takeWhile_sublist _).length_le.trans_eq List.length_reverse
      rw [stackIndex]
      have hlen : ctx.stack.length = pre.length + (s.length + 1) := by rw [hstack]; simp
      omega
    rw [EaContext.popScc]
    dsimp only
    rw [List.prefix_take_iff]
    exact ⟨⟨cmd :: s, hstack.symm⟩, hle⟩
  · exact ⟨cmd :: s, hstack.symm⟩

theorem resolveDeps_stack {rec : EaContext → InstanceId → Option EaContext}
    {deps : List InstanceId}
    (hrec : ∀ ctx dep ctx', rec ctx dep = some ctx' → ctx.stack <+: ctx'.stack)
    (h : deps.foldlM (EaContext.resolveDep rec cmd) ctx = some ctx') :
    ctx.stack <+: ctx'.stack := by
  induction deps generalizing ctx with
  | nil =>
    cases h
    exact List.prefix_rfl
  | cons dep deps ih =>
    rw [List.foldlM_cons] at h
    obtain ⟨ctx₁, hdep, h⟩ := Option.bind_eq_some_iff.1 h
    refine List.IsPrefix.trans ?_ (ih h)
    obtain ⟨d, -, hdep⟩ := Option.bind_eq_some_iff.1 hdep
    split_ifs at hdep
    · obtain ⟨ctx₂, hcall, hdep⟩ := Option.bind_eq_some_iff.1 hdep
      obtain ⟨e, -, rfl⟩ := Option.map_eq_some_iff.1 hdep
      exact hrec ctx dep ctx₂ hcall
    · cases hdep
      exact List.prefix_rfl
    · cases hdep
      exact List.prefix_rfl

/-- A call leaves on the stack what it finds there. -/
theorem resolveScc_stack (h : ctx.resolveScc sort fuel cmd = some ctx') :
    ctx.stack <+: ctx'.stack := by
  induction fuel generalizing ctx cmd ctx' with
  | zero => cases h
  | succ fuel ih =>
    obtain ⟨n, -, h⟩ := Option.bind_eq_some_iff.1 h
    obtain ⟨ctx₁, hloop, hclose⟩ := Option.bind_eq_some_iff.1 h
    obtain ⟨s, hs⟩ := resolveDeps_stack (fun _ _ _ => ih) hloop
    apply closeScc_stack hclose (s := s)
    rw [← hs, EaContext.enter, List.append_assoc]
    rfl

theorem view_resolveDeps {rec : EaContext → InstanceId → Option EaContext}
    {rec' : EaSlices → InstanceId → Option EaSlices} {deps : List InstanceId}
    (hrec : ∀ c dep ctx', rec c.view dep = some ctx' →
      ∃ c', rec' c dep = some c' ∧ c'.view = ctx')
    (h : deps.foldlM (EaContext.resolveDep rec cmd) c.view = some ctx') :
    ∃ c', deps.foldlM (resolveDep rec' cmd) c = some c' ∧ c'.view = ctx' := by
  induction deps generalizing c with
  | nil =>
    cases h
    exact ⟨c, rfl, rfl⟩
  | cons dep deps ih =>
    rw [List.foldlM_cons] at h ⊢
    obtain ⟨ctx₁, hdep, h⟩ := Option.bind_eq_some_iff.1 h
    suffices hstep : ∃ c₁, resolveDep rec' cmd c dep = some c₁ ∧ c₁.view = ctx₁ by
      obtain ⟨c₁, hstep, rfl⟩ := hstep
      obtain ⟨c', hrest, hview⟩ := ih h
      exact ⟨c', Option.bind_eq_some_iff.2 ⟨c₁, hstep, hrest⟩, hview⟩
    obtain ⟨d, hd, hdep⟩ := Option.bind_eq_some_iff.1 hdep
    rw [resolveDep, show c.vis dep = some d from hd, Option.bind_some]
    split_ifs at hdep ⊢
    · obtain ⟨ctx₂, hcall, hdep⟩ := Option.bind_eq_some_iff.1 hdep
      obtain ⟨e, he, rfl⟩ := Option.map_eq_some_iff.1 hdep
      obtain ⟨c₂, hcall', rfl⟩ := hrec c dep ctx₂ hcall
      refine ⟨c₂.lower cmd e.low, ?_, view_lower ..⟩
      rw [hcall', Option.bind_some, show c₂.vis dep = some e from he, Option.map_some]
    · cases hdep
      exact ⟨_, rfl, view_lower ..⟩
    · cases hdep
      exact ⟨c, rfl, rfl⟩

/-- A call does on the slice what it does on the list. -/
theorem view_resolveScc (h : c.view.resolveScc sort fuel cmd = some ctx') :
    ∃ c', c.resolveScc sort fuel cmd = some c' ∧ c'.view = ctx' := by
  induction fuel generalizing c cmd ctx' with
  | zero => cases h
  | succ fuel ih =>
    obtain ⟨n, hn, h⟩ := Option.bind_eq_some_iff.1 h
    obtain ⟨ctx₁, hloop, hclose⟩ := Option.bind_eq_some_iff.1 h
    have hmem : cmd ∈ ctx₁.stack := by
      apply (resolveDeps_stack (fun _ _ _ => resolveScc_stack) hloop).subset
      exact List.mem_append_right _ (List.mem_singleton_self cmd)
    rw [← view_enter] at hloop
    obtain ⟨c₁, hloop', rfl⟩ := view_resolveDeps (fun _ _ _ => ih) hloop
    obtain ⟨c', hclose', hview⟩ := view_closeScc hmem hclose
    refine ⟨c', ?_, hview⟩
    rw [resolveScc, show c.vis cmd = some n from hn, Option.bind_some, hloop', Option.bind_some,
      hclose']

end

end EaSlices

/-- What Tarjan's algorithm promises of the commands below `root`. -/
structure TarjanOf (cmds : Cmds) (root : InstanceId) (ctx : EaSlices)
    (blocks : List (List InstanceId)) : Prop where
  res : ctx.res = blocks.flatten
  nodup : ctx.res.Nodup
  reach : ∀ id, id ∈ ctx.res ↔ Reach cmds.deps root id
  isScc : ∀ scc ∈ blocks, IsScc cmds.deps scc
  depsFirst : blocks.Pairwise fun scc scc' => ∀ id ∈ scc, ∀ id' ∈ scc', ¬ Reach cmds.deps id id'
  sorted : ∀ scc ∈ blocks, scc.Pairwise fun id id' => cmds.seq id' ≤ cmds.seq id
  stack : ctx.len = 0
  instk : ∀ id cmd, ctx.vis id = some cmd → cmd.instk = false

/-- On every finite graph the search terminates, within a depth that the nodes of the graph
bound. -/
theorem components_tarjan (sort : SortSlice InstanceId) (G : DepGraph) {root : Instance}
    (hroot : G.Has root) {fuel : Nat} (hfuel : G.ids.length ≤ fuel) :
    ∃ ctx blocks, EaSlices.components sort fuel G.cmds root = some ctx ∧
      TarjanOf G.cmds root.I ctx blocks := by
  obtain ⟨ctx, blocks, S, hvisit, hcomp, hstack, hres, hsorted, hfirst, hreach, hsome, hvis⟩ :=
    components_search sort hroot hfuel
  obtain ⟨ctx₁, hcollect, hresolve⟩ := Option.bind_eq_some_iff.1 hcomp
  rw [← EaSlices.view_ofContext ctx₁] at hresolve
  obtain ⟨c, hc, rfl⟩ := EaSlices.view_resolveScc hresolve
  have hperm : List.Forall₂ List.Perm blocks S.res := hsorted.imp fun _ _ h => h.perm
  have hblocks : DepsFirst G.cmds.deps blocks := hfirst.perm hperm
  refine ⟨c, blocks, by rw [EaSlices.components, hcollect, Option.bind_some, hc], ?_⟩
  change c.res = blocks.flatten at hres
  constructor
  · exact hres
  · rw [hres]
    exact hblocks.nodup
  · intro id
    rw [hres, (List.Perm.flatten_congr hperm).mem_iff, hreach]
  · intro scc hscc
    exact hblocks.isScc hscc
  · exact hblocks.not_reach
  · exact ((List.forall₂_and_left _ _).1 (hsorted.imp fun _ _ h => ⟨h.pairwise, h⟩)).1
  · have hlen := congrArg List.length hstack
    rwa [EaSlices.view, List.length_take_of_le c.le] at hlen
  · intro id cmd hcmd
    exact (hvis id cmd hcmd).2

def repeating : Instance :=
  ⟨⟨0, 1⟩, ⟨1, 0, 0⟩, ⟨1, 0, 0⟩, .committed, ⟨.w, [1], some [1]⟩, 1,
    [some ⟨1, 1⟩, some ⟨1, 1⟩, some ⟨0, 1⟩]⟩

def returning : Instance :=
  ⟨⟨1, 1⟩, ⟨1, 0, 1⟩, ⟨1, 0, 1⟩, .committed, ⟨.w, [1], some [2]⟩, 2, [some ⟨0, 1⟩]⟩

def entangled : DepGraph where
  cmds id := if id = ⟨0, 1⟩ then some repeating else if id = ⟨1, 1⟩ then some returning else none
  ids := [⟨0, 1⟩, ⟨1, 1⟩]
  node := List.forall_mem_cons.2 ⟨⟨repeating, rfl, rfl⟩,
    List.forall_mem_cons.2 ⟨⟨returning, rfl, rfl⟩, nofun⟩⟩
  closed := by decide

theorem components_tarjan_entangled : ∃ ctx blocks,
    EaSlices.components (.insertion _) 2 entangled.cmds repeating = some ctx ∧
      TarjanOf entangled.cmds ⟨0, 1⟩ ctx blocks :=
  components_tarjan (.insertion _) entangled (by decide) (by decide)

end Misc.Epaxos
