import Misc.Lib.Linked
import Misc.Lib.Machine

namespace Misc.Sys
open Misc.Lib
set_option autoImplicit true

def slotSize : Nat := 128

/-- The place of a descriptor: the number of its slot and its index in it. -/
structure Polldesp where
  slot : Nat
  idx : Nat
  deriving DecidableEq, Repr

structure Pdslot where
  marks : List UInt8
  pnext : Option Nat
  cnt : Nat
  deriving DecidableEq, Repr

/-- A pointer to a slot is its place in `slots`; `partialSlot` is the field `partial`. -/
structure Pdpool where
  slots : List Pdslot
  partialSlot : Option Nat
  deriving DecidableEq, Repr

namespace Pdslot

/-- The loop over the marks, with a bound on its turns. Without another goroutine it finds the
same marks in each turn. -/
def takeMark : Nat → List UInt8 → Option Nat
  | 0, _ => none
  | n + 1, marks => (marks.idxOf? 0).or (takeMark n marks)

def take (s : Pdslot) (i : Nat) : Pdslot := { s with cnt := s.cnt + 1, marks := s.marks.set i 1 }

def release (s : Pdslot) (i : Nat) : Pdslot :=
  { s with marks := s.marks.set i 0, cnt := s.cnt - 1 }

def fresh : Pdslot := ⟨(List.replicate slotSize 0).set 0 1, none, 1⟩

end Pdslot

namespace Pdpool

def new : Pdpool := ⟨[], none⟩

def next (p : Pdpool) (a : Nat) : Option (Option Nat) := p.slots[a]?.map (·.pnext)

def putPartial (p : Pdpool) (a : Nat) : Pdpool where
  slots := p.slots.modify a fun s => { s with pnext := p.partialSlot }
  partialSlot := some a

/-- `alloc` with a bound on the turns of its loops; without another goroutine the exchange of
`partial` succeeds. -/
def alloc : Nat → Pdpool → Option (Polldesp × Pdpool)
  | 0, _ => none
  | n + 1, p =>
    match p.partialSlot with
    | none => some (⟨p.slots.length, 0⟩,
        { p with slots := p.slots ++ [Pdslot.fresh] }.putPartial p.slots.length)
    | some a => p.slots[a]?.bind fun s =>
      if slotSize < s.cnt + 1 then alloc n { p with partialSlot := s.pnext }
      else (Pdslot.takeMark n s.marks).map fun i =>
        (⟨a, i⟩, { p with slots := p.slots.set a (s.take i) })

def free (p : Pdpool) (pd : Polldesp) : Option Pdpool :=
  p.slots[pd.slot]?.map fun s =>
    let p' := { p with slots := p.slots.set pd.slot (s.release pd.idx) }
    if (s.release pd.idx).cnt = slotSize - 1 then p'.putPartial pd.slot else p'

end Pdpool

/-- A pool and the descriptors that have been allocated and not freed since. -/
structure State where
  pool : Pdpool
  live : List Polldesp
  deriving DecidableEq, Repr

inductive Act
  | alloc (turns : Nat)
  | free (pd : Polldesp)
  deriving DecidableEq, Repr

def State.step (s : State) : Act → Option State
  | .alloc n => (s.pool.alloc n).map fun (pd, pool) => ⟨pool, pd :: s.live⟩
  | .free pd =>
    if pd ∈ s.live then (s.pool.free pd).map fun pool => ⟨pool, s.live.erase pd⟩ else none

def machine : Machine State Act where
  init s := s = ⟨.new, []⟩
  step := State.step

end Misc.Sys
