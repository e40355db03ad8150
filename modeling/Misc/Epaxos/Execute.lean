import Misc.Lib.Tarjan
import Misc.Epaxos.State

namespace Misc.Epaxos
open Misc.Lib.Graph
set_option autoImplicit true

/-- `explicitPrepare` of an instance with a `MaxSeen`: the state that it leaves and what it
returns, where an error counts as `false`. -/
abbrev ExplicitPrepare := State → InstanceId → BallotNumber → Option (State × Bool)

/-- Prepares a dependency that is missing or not committed. -/
def recoveryDep (prepare : ExplicitPrepare) (s : State) (depId : InstanceId) :
    Option (State × Bool) :=
  match s.getCmd depId with
  | some depIns => if depIns.State = .committed then some (s, true)
    else prepare s depId depIns.MaxSeen
  | none => prepare s depId .zero

/-- The loop over the dependencies of one instance, with the queue it leaves unless it returns. A
`nil` among them panics. -/
def recoveryScan (prepare : ExplicitPrepare) (ins : Instance) :
    List (Option InstanceId) → State → List Instance → Option (State × Option (List Instance))
  | [], s, q => some (s, some q)
  | none :: _, _, _ => none
  | some depId :: deps, s, q =>
    (recoveryDep prepare s depId).bind fun (s, ok) =>
      if ok then
        (s.getCmd depId).bind fun depIns =>
          recoveryScan prepare ins deps s (if depIns.Seq < ins.Seq then q ++ [depIns] else q)
      else some (s, none)

def recoveryDeps (prepare : ExplicitPrepare) (lastSeq : UInt64) :
    Nat → State → List Instance → Option (State × Bool)
  | 0, _, _ => none
  | _ + 1, s, [] => some (s, true)
  | fuel + 1, s, ins :: q =>
    if ins.Seq ≤ lastSeq then recoveryDeps prepare lastSeq fuel s q
    else (recoveryScan prepare ins ins.Deps s q).bind fun
      | (s, some q) => recoveryDeps prepare lastSeq fuel s q
      | (s, none) => some (s, false)

/-- A node of the dependency graph. A pointer to it is the id of its instance, under which `vis`
holds it. -/
structure EaCmd where
  ins : Instance
  deps : List InstanceId
  dfn : Nat
  low : Nat
  instk : Bool
  deriving DecidableEq, Repr

structure EaContext where
  vis : InstanceId → Option EaCmd
  dfncnt : Nat
  stack : List InstanceId
  res : List InstanceId

/-- The sort of a component, which puts the largest `Seq` first. -/
def sortScc (sort : SortSlice InstanceId) (seq : InstanceId → UInt64) (scc : List InstanceId) :
    List InstanceId :=
  if 1 < scc.length then sort.sort (fun i j => seq j < seq i) scc else scc

namespace EaContext

def new : EaContext := ⟨fun _ => none, 0, [], []⟩

def modify (ctx : EaContext) (id : InstanceId) (f : EaCmd → EaCmd) : EaContext :=
  { ctx with vis := Function.update ctx.vis id ((ctx.vis id).map f) }

def insert (ctx : EaContext) (ins : Instance) : EaContext :=
  { ctx with vis := Function.update ctx.vis ins.I (some ⟨ins, [], 0, 0, false⟩) }

def collectDep (cmds : Cmds) (rec : EaContext → Instance → Option EaContext) (root : Instance)
    (ctx : EaContext) : Option InstanceId → Option EaContext
  | none => none
  | some depId =>
    (if (ctx.vis depId).isSome then some ctx else (cmds depId).bind (rec ctx)).map fun ctx =>
      ctx.modify root.I fun cmd => { cmd with deps := cmd.deps ++ [depId] }

def collectCmds (cmds : Cmds) : Nat → EaContext → Instance → Option EaContext
  | 0, _, _ => none
  | fuel + 1, ctx, root =>
    root.Deps.foldlM (collectDep cmds (collectCmds cmds fuel) root) (ctx.insert root)

def enter (ctx : EaContext) (cmd : InstanceId) : EaContext :=
  let n := ctx.dfncnt + 1
  { ctx.modify cmd fun c => { c with dfn := n, low := n, instk := true } with
    dfncnt := n
    stack := ctx.stack ++ [cmd] }

def lower (ctx : EaContext) (cmd : InstanceId) (k : Nat) : EaContext :=
  ctx.modify cmd fun c => { c with low := min c.low k }

def resolveDep (rec : EaContext → InstanceId → Option EaContext) (cmd : InstanceId)
    (ctx : EaContext) (dep : InstanceId) : Option EaContext :=
  (ctx.vis dep).bind fun d =>
    if d.dfn = 0 then
      (rec ctx dep).bind fun ctx => (ctx.vis dep).map fun d => ctx.lower cmd d.low
    else if d.instk then some (ctx.lower cmd d.dfn)
    else some ctx

def seq (ctx : EaContext) (id : InstanceId) : UInt64 :=
  ((ctx.vis id).map fun c => c.ins.Seq).getD 0

/-- Takes a component from the stack. -/
def popScc (sort : SortSlice InstanceId) (ctx : EaContext) (cmd : InstanceId) : EaContext :=
  let n := stackIndex cmd ctx.stack
  let scc := ctx.stack.drop n
  { ctx with
    vis := fun id => if id ∈ scc then (ctx.vis id).map fun c => { c with instk := false }
      else ctx.vis id
    stack := ctx.stack.take n
    res := ctx.res ++ sortScc sort ctx.seq scc }

def closeScc (sort : SortSlice InstanceId) (ctx : EaContext) (cmd : InstanceId) :
    Option EaContext :=
  (ctx.vis cmd).map fun c => if c.dfn = c.low then ctx.popScc sort cmd else ctx

def resolveScc (sort : SortSlice InstanceId) : Nat → EaContext → InstanceId → Option EaContext
  | 0, _, _ => none
  | fuel + 1, ctx, cmd =>
    (ctx.vis cmd).bind fun c =>
      (c.deps.foldlM (resolveDep (resolveScc sort fuel) cmd) (ctx.enter cmd)).bind fun ctx =>
        ctx.closeScc sort cmd

/-- The commands of `res` from its end on. -/
def applied (ctx : EaContext) : List Instance :=
  ctx.res.reverse.filterMap fun id => (ctx.vis id).map EaCmd.ins

end EaContext

/-- The graph of the commands below `root` and its components. -/
def components (sort : SortSlice InstanceId) (fuel : Nat) (cmds : Cmds) (root : Instance) :
    Option EaContext :=
  (EaContext.new.collectCmds cmds fuel root).bind fun ctx => ctx.resolveScc sort fuel root.I

/-- `executeCmd`, with the commands given to `applyCmd` in order. -/
def executeCmd (sort : SortSlice InstanceId) (prepare : ExplicitPrepare) (fuel : Nat) (s : State)
    (exe : Executor) (root : Instance) : Option (State × Bool × List Instance) :=
  let lastSeq := ((exe.kv root.Y.Key).map ValueMeta.seq).getD 0
  (recoveryDeps prepare lastSeq fuel s [root]).bind fun (s, ok) =>
    if ok then (components sort fuel s.cmds root).map fun ctx => (s, true, ctx.applied)
    else some (s, false, [])

end Misc.Epaxos
