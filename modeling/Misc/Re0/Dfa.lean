import Misc.Re0.Re

namespace Misc.Re0
set_option autoImplicit true

/-- A call that has not come to its end, or an index out of range. -/
inductive Stop
  | fuel
  | panic
  deriving DecidableEq, Repr

/-- In what order each loop over a map, one after another, has its keys. -/
structure Order where
  keys : Nat → List Addr → List Addr
  perm : ∀ k l, (keys k l).Perm l

/-- The first argument bounds the depth of the recursion. -/
def nfaAllocId : Nat → Addr → Nat → Heap → Except Stop (Nat × Heap)
  | 0, _, _, _ => .error .fuel
  | fuel + 1, n, id, h =>
    if (h.state n).id ≠ 0 then .ok (id, h)
    else
      (h.state n).edges.foldlM (fun p e => nfaAllocId fuel e.next p.1 p.2)
        (id + 1, h.set n { h.state n with id })

/-- The keys of `set`, without their order. -/
def moveSet (h : Heap) (states : List Addr) (c : UInt8) : List Addr :=
  (states.flatMap fun st =>
    ((h.state st).edges.filter fun e => !e.epsilion && e.ch == c).map NfaEdge.next).dedup

def nfaMove (o : Order) (k : Nat) (h : Heap) (states : List Addr) (c : UInt8) : List Addr :=
  o.keys k (moveSet h states c)

/-- The loop of `eClosure` over the edges of a state; the stack has its top first. -/
def closeEdges (p : List Addr × List Addr) (e : NfaEdge) : List Addr × List Addr :=
  if !e.epsilion then p else if e.next ∈ p.2 then p else (e.next :: p.1, p.2 ++ [e.next])

/-- The loop of `eClosure` over its stack. -/
def closeStack (h : Heap) : Nat → List Addr → List Addr → Except Stop (List Addr)
  | _, [], set => .ok set
  | 0, _ :: _, _ => .error .fuel
  | fuel + 1, t :: stack, set =>
    let p := (h.state t).edges.foldl closeEdges (stack, set)
    closeStack h fuel p.1 p.2

def eClosure (o : Order) (k fuel : Nat) (h : Heap) (t : List Addr) : Except Stop (List Addr) :=
  (closeStack h fuel t.reverse t.dedup).map (o.keys k)

structure DfaState where
  states : List Addr
  hash : Nat
  i : Nat
  accept : Bool
  deriving DecidableEq, Repr

/-- The inner loop of `nfaDstate`, with `i + 1` for the argument: `ec[i]` and `ec[i+1]` change
places as long as the id at `i` is greater than that of `st`. -/
def sink (h : Heap) (st : Addr) : Nat → List Addr → List Addr
  | 0, ec => ec
  | i + 1, ec =>
    if (h.state (ec.getD i 0)).id ≤ (h.state st).id then ec
    else sink h st i ((ec.set (i + 1) (ec.getD i 0)).set i (ec.getD (i + 1) 0))

/-- The loop of `nfaDstate`; the states are read from the slice that is changed. -/
def dstateLoop (h : Heap) : Nat → Nat → DfaState → DfaState
  | 0, _, u => u
  | n + 1, k, u =>
    let st := u.states.getD k 0
    dstateLoop h n (k + 1)
      { u with
        accept := if !u.accept then (h.state st).accept else u.accept
        hash := u.hash + (h.state st).id
        states := sink h st (u.states.length - 1) u.states }

def nfaDstate (h : Heap) (ec : List Addr) : DfaState :=
  dstateLoop h ec.length 0 ⟨ec, 0, 0, false⟩

/-- The place of a state with the same states in the same order. -/
def inStates (states : List DfaState) (u : DfaState) : Option Nat :=
  states.findIdx? fun st =>
    u.hash == st.hash && u.states.length == st.states.length && u.states == st.states

abbrev Row := Nat → Nat

/-- The variables of `nfaToDfa`, and how many loops over maps there have been. -/
structure Subsets where
  dstates : List DfaState
  dtran : List Row
  daccept : List Bool
  stack : List Nat
  loops : Nat

/-- The bytes that lead on from some states; a byte from 128 on is out of range. -/
def charset (h : Heap) (states : List Addr) : Except Stop (List Nat) :=
  let edges := states.flatMap fun st => (h.state st).edges.filter fun e => !e.epsilion
  if edges.any fun e => 128 ≤ e.ch.toNat then .error .panic
  else .ok ((List.range 128).filter fun a => edges.any fun e => e.ch.toNat == a)

def Subsets.byte (o : Order) (fuel : Nat) (h : Heap) (t : DfaState) (s : Subsets) (a : Nat) :
    Except Stop Subsets :=
  (eClosure o (s.loops + 1) fuel h (nfaMove o s.loops h t.states (UInt8.ofNat a))).map fun ec =>
    let u := nfaDstate h ec
    match inStates s.dstates u with
    | none =>
      let i := s.dstates.length
      { dstates := s.dstates ++ [{ u with i }]
        dtran := (s.dtran ++ [fun _ => 0]).modify t.i (Function.update · a i)
        daccept := s.daccept ++ [u.accept]
        stack := i :: s.stack
        loops := s.loops + 2 }
    | some j =>
      { s with
        dtran := s.dtran.modify t.i (Function.update · a ((s.dstates.map DfaState.i).getD j 0))
        loops := s.loops + 2 }

def Subsets.loop (o : Order) (closeFuel : Nat) (h : Heap) : Nat → Subsets → Except Stop Subsets
  | fuel, s =>
    match fuel, s.stack with
    | _, [] => .ok s
    | 0, _ :: _ => .error .fuel
    | fuel + 1, top :: stack =>
      match s.dstates[top]? with
      | none => .error .panic
      | some t => do
        let cs ← charset h t.states
        let s ← cs.foldlM (Subsets.byte o closeFuel h t) { s with stack }
        Subsets.loop o closeFuel h fuel s

def subsets (o : Order) (fuel : Nat) (h : Heap) (n : NFA) : Except Stop Subsets := do
  let ec ← eClosure o 0 fuel h [n.Start]
  Subsets.loop o fuel h fuel ⟨[nfaDstate h ec], [fun _ => 0], [false], [0], 1⟩

structure DFA where
  tran : List Row
  accept : List Bool

def nfaToDfa (o : Order) (fuel : Nat) (h : Heap) (n : NFA) : Except Stop DFA :=
  (subsets o fuel h n).map fun s => ⟨s.dtran, s.daccept⟩

/-- `d.tran[st][c]`. -/
def DFA.step (d : DFA) (st : Nat) (c : UInt8) : Except Stop Nat :=
  match d.tran[st]? with
  | some row => if c.toNat < 128 then .ok (row c.toNat) else .error .panic
  | none => .error .panic

def DFA.match (d : DFA) (s : List UInt8) : Except Stop Bool := do
  let st ← s.foldlM d.step 0
  match d.accept[st]? with
  | some b => .ok b
  | none => .error .panic

def Match (o : Order) (fuel : Nat) (re s : List UInt8) : Except Stop Bool :=
  match REtoNFA re with
  | none => .error .panic
  | some (n, h) => do
    let (_, h) ← nfaAllocId fuel n.Start 1 h
    let d ← nfaToDfa o fuel (h.set n.End { h.state n.End with accept := true }) n
    d.match s

end Misc.Re0
