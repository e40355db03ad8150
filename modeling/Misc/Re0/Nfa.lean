import Mathlib.Computability.EpsilonNFA
import Mathlib.Computability.RegularExpressions

namespace Misc.Re0
set_option autoImplicit true

abbrev Addr := Nat

structure NfaEdge where
  next : Addr
  epsilion : Bool
  ch : UInt8
  deriving DecidableEq, Repr

structure NFAState where
  edges : List NfaEdge
  id : Nat
  accept : Bool
  deriving DecidableEq, Repr

def NFAState.zero : NFAState := ⟨[], 0, false⟩

/-- The states that have been made, one after the other. -/
structure Heap where
  state : Addr → NFAState
  size : Nat

structure NFA where
  Start : Addr
  End : Addr
  deriving DecidableEq, Repr

namespace Heap

def empty : Heap := ⟨fun _ => .zero, 0⟩

def set (h : Heap) (s : Addr) (st : NFAState) : Heap :=
  { h with state := Function.update h.state s st }

def addE (h : Heap) (s next : Addr) : Heap :=
  h.set s { h.state s with edges := (h.state s).edges ++ [⟨next, true, 0⟩] }

def addChar (h : Heap) (s : Addr) (c : UInt8) (next : Addr) : Heap :=
  h.set s { h.state s with edges := (h.state s).edges ++ [⟨next, false, c⟩] }

def fresh (h : Heap) : NFA × Heap :=
  (⟨h.size, h.size + 1⟩,
    { state := Function.update (Function.update h.state h.size .zero) (h.size + 1) .zero
      size := h.size + 2 })

end Heap

def nfaE (h : Heap) : NFA × Heap :=
  let (n, h) := h.fresh
  (n, h.addE n.Start n.End)

def nfaChar (c : UInt8) (h : Heap) : NFA × Heap :=
  let (n, h) := h.fresh
  (n, h.addChar n.Start c n.End)

/-- `*a.End = *b.Start`. The slice of edges is shared from then on, but nothing is appended to
it. -/
def nfaCat (a b : NFA) (h : Heap) : NFA × Heap :=
  (⟨a.Start, b.End⟩, h.set a.End (h.state b.Start))

def nfaOr (a b : NFA) (h : Heap) : NFA × Heap :=
  let (n, h) := h.fresh
  (n, (((h.addE n.Start a.Start).addE a.End n.End).addE n.Start b.Start).addE b.End n.End)

def nfaStar (a : NFA) (h : Heap) : NFA × Heap :=
  let (n, h) := h.fresh
  (n, (((h.addE n.Start a.Start).addE n.Start n.End).addE a.End n.End).addE a.End a.Start)

def NfaEdge.label (e : NfaEdge) : Option UInt8 := if e.epsilion then none else some e.ch

/-- The states with their edges as an automaton; it starts nowhere. -/
def Heap.graph (h : Heap) : εNFA UInt8 Addr where
  step s o := {t | ∃ e ∈ (h.state s).edges, e.next = t ∧ e.label = o}
  start := ∅
  accept := {s | (h.state s).accept = true}

/-- What is read on the way from the start to the end. -/
def NFA.language (n : NFA) (h : Heap) : Language UInt8 :=
  {w | n.End ∈ h.graph.evalFrom {n.Start} w}

/-- What is read on the way from the start to a state that accepts. -/
def NFA.accepts (n : NFA) (h : Heap) : Language UInt8 :=
  {w | ∃ s, (h.state s).accept = true ∧ s ∈ h.graph.evalFrom {n.Start} w}

end Misc.Re0
