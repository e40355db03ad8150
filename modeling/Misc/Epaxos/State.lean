import Misc.Epaxos.Instance

namespace Misc.Epaxos
set_option autoImplicit true

/-- The latest instance of a key, and the latest that writes it. -/
structure KeyDep where
  lastSeq : UInt64
  lastId : Option InstanceId
  wSeq : UInt64
  wId : Option InstanceId
  deriving DecidableEq, Repr

def KeyDep.zero : KeyDep := ⟨0, none, 0, none⟩

abbrev Cmds := InstanceId → Option Instance

structure State where
  cmds : Cmds
  root : List UInt8 → Option KeyDep
  instanceIdx : UInt64

def State.empty : State := ⟨fun _ => none, fun _ => none, 0⟩

def State.getCmd (s : State) (id : InstanceId) : Option Instance := s.cmds id

def KeyDep.update (dep : KeyDep) (ins : Instance) : KeyDep :=
  let dep := if dep.lastSeq < ins.Seq then { dep with lastSeq := ins.Seq, lastId := some ins.I }
    else dep
  if ins.Y.Op = .w ∧ dep.wSeq < ins.Seq then { dep with wSeq := ins.Seq, wId := some ins.I }
  else dep

def State.setCmd (s : State) (ins : Instance) : State where
  cmds := Function.update s.cmds ins.I (some ins)
  root := Function.update s.root ins.Y.Key (some (((s.root ins.Y.Key).getD .zero).update ins))
  instanceIdx := s.instanceIdx

/-- `storeCmd` with a `Persist` that stores successfully. -/
def State.storeCmd (s : State) (ins : Instance) : State := s.setCmd ins

def State.allocInstance (s : State) : State × UInt64 :=
  ({ s with instanceIdx := s.instanceIdx + 1 }, s.instanceIdx + 1)

/-- Both branches of `getInterfLocked` return the latest instance of the key. It is `nil` as
long as only instances with `Seq` zero have been stored under the key. -/
def State.getInterf (s : State) (key : List UInt8) : UInt64 × List (Option InstanceId) :=
  match s.root key with
  | some dep => (dep.lastSeq, [dep.lastId])
  | none => (0, [])

structure ValueMeta where
  data : Option (List UInt8)
  seq : UInt64
  deriving DecidableEq, Repr

/-- The executor, with the channels that wait for the result of an instance given by numbers. -/
structure Executor where
  kv : List UInt8 → Option ValueMeta
  read : InstanceId → Option (List Nat)
  q : List InstanceId

def Executor.empty : Executor := ⟨fun _ => none, fun _ => none, []⟩

def Executor.addCmd (e : Executor) (key : List UInt8) (seq : UInt64) (i : InstanceId)
    (res : Option Nat) : Executor × Bool :=
  if ∃ vm ∈ e.kv key, seq ≤ vm.seq then (e, false)
  else
    let read := match res with
      | some ch => Function.update e.read i (some ((e.read i).getD [] ++ [ch]))
      | none => e.read
    ({ e with q := e.q ++ [i], read }, true)

/-- The value of a key after the command of `ins`. -/
def Executor.written (e : Executor) (ins : Instance) : Option ValueMeta :=
  if ins.Y.Op = .w then some ⟨ins.Y.Value, ins.Seq⟩ else e.kv ins.Y.Key

/-- The executor after the command of `ins`, with the values that are sent on channels. -/
def Executor.applyCmd (e : Executor) (ins : Instance) : Executor × List (Nat × List UInt8) :=
  let vm := e.written ins
  ({ e with
      kv := Function.update e.kv ins.Y.Key vm
      read := Function.update e.read ins.I none },
    match vm.bind ValueMeta.data with
    | some data => ((e.read ins.I).getD []).map fun ch => (ch, data)
    | none => [])

end Misc.Epaxos
