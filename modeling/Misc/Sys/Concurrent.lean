import Misc.Lib.Counting
import Misc.Sys.Polldesp

namespace Misc.Sys.Concurrent
open Misc.Lib
set_option autoImplicit true

/-- A slot as goroutines share it. -/
structure Slot where
  marks : List UInt8
  pnext : Option Nat
  cnt : Int
  deriving DecidableEq, Repr

def Slot.fresh : Slot := ⟨(List.replicate slotSize 0).set 0 1, none, 1⟩

/-- Where a goroutine stands in `alloc`, `free` or `putpartial`: what it does next. `putpartial`
keeps what `alloc` returns after it. -/
inductive Pc
  | out
  | load
  | grow
  | reserve (a : Nat)
  | undo (a : Nat)
  | next (a : Nat)
  | unlink (a : Nat) (pnext : Option Nat)
  | scan (a i : Nat)
  | take (a i : Nat)
  | loadPartial (a : Nat) (got : Option Polldesp)
  | storeNext (a : Nat) (v : Option Nat) (got : Option Polldesp)
  | readNext (a : Nat) (got : Option Polldesp)
  | swapPartial (a : Nat) (v : Option Nat) (got : Option Polldesp)
  | clear (pd : Polldesp)
  | release (a : Nat)
  deriving DecidableEq, Repr

/-- The pool, the goroutines, and the descriptors that `alloc` has returned and that are not yet
given back. -/
structure State where
  slots : List Slot
  partialSlot : Option Nat
  pcs : List Pc
  held : List Polldesp
  deriving DecidableEq, Repr

namespace State

def goto (s : State) (t : Nat) (pc : Pc) : State := { s with pcs := s.pcs.set t pc }

def setSlot (s : State) (a : Nat) (slot : Slot) : State := { s with slots := s.slots.set a slot }

@[simp] theorem goto_held (s : State) (t : Nat) (pc : Pc) : (s.goto t pc).held = s.held := rfl

@[simp] theorem setSlot_held (s : State) (a : Nat) (slot : Slot) :
    (s.setSlot a slot).held = s.held := rfl

/-- The next access to memory of the goroutine `t`, which stands at `pc`. -/
def run (s : State) (t : Nat) : Pc → Option State
  | .out => none
  | .load => some (s.goto t (match s.partialSlot with
    | none => .grow
    | some a => .reserve a))
  | .grow => some ({ s with slots := s.slots ++ [Slot.fresh] }.goto t
      (.loadPartial s.slots.length (some ⟨s.slots.length, 0⟩)))
  | .reserve a => s.slots[a]?.map fun slot =>
      (s.setSlot a { slot with cnt := slot.cnt + 1 }).goto t
        (if (slotSize : Int) < slot.cnt + 1 then .undo a else .scan a 0)
  | .undo a => s.slots[a]?.map fun slot =>
      (s.setSlot a { slot with cnt := slot.cnt - 1 }).goto t (.next a)
  | .next a => s.slots[a]?.map fun slot => s.goto t (.unlink a slot.pnext)
  | .unlink a pnext =>
      some ((if s.partialSlot = some a then { s with partialSlot := pnext } else s).goto t .load)
  | .scan a i => s.slots[a]?.map fun (slot : Slot) =>
      s.goto t (match slot.marks[i]? with
        | none => .scan a 0
        | some mark => if mark = 0 then .take a i else .scan a (i + 1))
  | .take a i => s.slots[a]?.map fun slot =>
      if slot.marks[i]? = some 0 then
        { s.setSlot a { slot with marks := slot.marks.set i 1 } with held := ⟨a, i⟩ ::
          s.held }.goto t .out
      else s.goto t (.scan a 0)
  | .loadPartial a got => some (s.goto t (.storeNext a s.partialSlot got))
  | .storeNext a v got => s.slots[a]?.map fun slot =>
      (s.setSlot a { slot with pnext := v }).goto t (.readNext a got)
  | .readNext a got => s.slots[a]?.map fun slot => s.goto t (.swapPartial a slot.pnext got)
  | .swapPartial a v got =>
      if s.partialSlot = v then
        some ({ s with partialSlot := some a, held := got.toList ++ s.held }.goto t .out)
      else some (s.goto t (.loadPartial a got))
  | .clear pd => s.slots[pd.slot]?.map fun slot =>
      (s.setSlot pd.slot { slot with marks := slot.marks.set pd.idx 0 }).goto
        t (.release pd.slot)
  | .release a => s.slots[a]?.map fun slot =>
      (s.setSlot a { slot with cnt := slot.cnt - 1 }).goto t
        (if slot.cnt - 1 = (slotSize : Int) - 1 then .loadPartial a none else .out)

end State

/-- A goroutine calls `alloc`, gives a descriptor back that somebody holds, or goes on. -/
inductive Act
  | alloc (t : Nat)
  | free (t : Nat) (pd : Polldesp)
  | run (t : Nat)
  deriving DecidableEq, Repr

def State.step (s : State) : Act → Option State
  | .alloc t => if s.pcs[t]? = some .out then some (s.goto t .load) else none
  | .free t pd =>
    if s.pcs[t]? = some .out ∧ pd ∈ s.held then
      some ({ s with held := s.held.erase pd }.goto t (.clear pd))
    else none
  | .run t => s.pcs[t]?.bind (s.run t)

/-- Any number of goroutines and an empty pool; any of them may take the next step. -/
def machine : Machine State Act where
  init s := ∃ n, s = ⟨[], none, List.replicate n .out, []⟩
  step := State.step

end Misc.Sys.Concurrent
