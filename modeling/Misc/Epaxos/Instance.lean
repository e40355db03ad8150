import Mathlib.Data.List.Sort
import Mathlib.Data.Option.NAry
import Mathlib.Logic.Function.Basic

namespace Misc.Epaxos
set_option autoImplicit true

inductive CmdOp
  | nop | r | w
  deriving DecidableEq, Repr

inductive InstanceState
  | init | preAccepted | accepted | committed
  deriving DecidableEq, Repr

structure Command where
  Op : CmdOp
  Key : List UInt8
  Value : Option (List UInt8)
  deriving DecidableEq, Repr

def Command.nop : Command := ⟨.nop, [], none⟩

structure BallotNumber where
  Epoch : UInt64
  B : UInt64
  R : UInt64
  deriving DecidableEq, Repr

def BallotNumber.zero : BallotNumber := ⟨0, 0, 0⟩

def lessBallotNumber (a b : BallotNumber) : Bool :=
  if a.Epoch = b.Epoch then
    if a.B = b.B then a.R < b.R else a.B < b.B
  else a.Epoch < b.Epoch

def equalBallotNumber (a b : BallotNumber) : Bool :=
  a.Epoch == b.Epoch && a.B == b.B && a.R == b.R

structure InstanceId where
  Rid : UInt64
  Index : UInt64
  deriving DecidableEq, Repr

/-- A dependency is a pointer to an id, which may be `nil`. -/
structure Instance where
  I : InstanceId
  Ballot : BallotNumber
  MaxSeen : BallotNumber
  State : InstanceState
  Y : Command
  Seq : UInt64
  Deps : List (Option InstanceId)
  deriving DecidableEq, Repr

/-- The difference of two ids, as the conversion of an unsigned difference to `int` gives it. -/
def cmpInstanceId (a b : InstanceId) : Int64 :=
  if a.Rid = b.Rid then (a.Index - b.Index).toInt64 else (a.Rid - b.Rid).toInt64

/-- `cmpInstanceId` of two pointers; `none` is the panic at a `nil`. -/
def cmpPtr : Option InstanceId → Option InstanceId → Option Int64 := Option.map₂ cmpInstanceId

/-- The ids that the pointers point to, unless one of them is `nil`. -/
def derefs (c : List (Option InstanceId)) : Option (List InstanceId) := c.mapM id

/-- What `sort.Slice` requires of the function that it is given. -/
structure StrictWeak (less : α → α → Bool) : Prop where
  irrefl : ∀ a, less a a = false
  trans : ∀ a b c, less a b = true → less b c = true → less a c = true
  negTrans : ∀ a b c, less a b = false → less b c = false → less a c = false

/-- A function that does what `sort.Slice` documents: the result is sorted, and nothing is said
about the order of equal elements. -/
structure SortSlice (α : Type) where
  sort : (α → α → Bool) → List α → List α
  perm : ∀ less l, (sort less l).Perm l
  sorted : ∀ less l, StrictWeak less → (sort less l).Pairwise fun a b => less b a = false

theorem StrictWeak.total {less : α → α → Bool} (h : StrictWeak less) (a b : α) :
    less b a = false ∨ less a b = false := by
  cases hab : less a b with
  | false => exact .inr rfl
  | true =>
    left
    apply Bool.eq_false_iff.2
    intro hba
    have haa := h.trans a b a hab hba
    rw [h.irrefl] at haa
    cases haa

/-- Insertion sort, which `sort.Slice` uses for at most twelve elements. -/
def SortSlice.insertion (α : Type) : SortSlice α where
  sort less := List.insertionSort fun a b => less b a = false
  perm less := List.perm_insertionSort _
  sorted less l h := by
    have htotal : Std.Total fun a b => less b a = false := ⟨fun a b => h.total a b⟩
    have htrans : IsTrans α fun a b => less b a = false :=
      ⟨fun a b c hab hbc => h.negTrans c b a hbc hab⟩
    exact List.pairwise_insertionSort _ l

theorem StrictWeak.byKey (key : α → UInt64) : StrictWeak fun a b => decide (key b < key a) := by
  constructor
  · intro a
    simp
  · intro a b c hab hbc
    rw [decide_eq_true_eq] at hab hbc ⊢
    exact UInt64.lt_trans hbc hab
  · intro a b c hab hbc
    rw [decide_eq_false_iff_not, UInt64.not_lt] at hab hbc ⊢
    exact UInt64.le_trans hab hbc

end Misc.Epaxos
