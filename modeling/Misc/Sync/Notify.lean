import Misc.Lib.Machine

namespace Misc.Sync
open Misc.Lib
set_option autoImplicit true

/-- Where a thread stands inside `Latch::acquire`: before the load of `try_acquire`, or before
its `compare_exchange`. Backing off between two attempts touches no shared memory. -/
inductive LatchPc
  | load | cas
  deriving DecidableEq, Repr

/-- One atomic operation of `Latch::acquire`, with `none` once the latch is held. -/
def Latch.acquire (latch : Bool) : LatchPc → Bool × Option LatchPc
  | .load => (latch, some (if latch then .load else .cas))
  | .cas => if latch then (latch, some .load) else (true, none)

def Latch.release (_ : Bool) : Bool := false

inductive NotifyState
  | idle | signaled | waiting
  deriving DecidableEq, Repr

/-- The memory shared by the two ends. A waker is known by the task that it wakes. -/
structure OneNotifyInner where
  state : NotifyState
  latch : Bool
  waker : Option Nat
  deriving DecidableEq, Repr

/-- Where the transmitter stands in `OneNotifyTx::pulse`. -/
inductive TxPc
  | out
  | load
  | cas
  | acquire (pc : LatchPc)
  | take
  | panicked
  | store (w : Nat)
  | release (w : Nat)
  | wake (w : Nat)
  | ret
  deriving DecidableEq, Repr

def OneNotifyTx.pulse (s : OneNotifyInner) : TxPc → Option (OneNotifyInner × TxPc)
  | .out => none
  | .load =>
    match s.state with
    | .idle => some (s, .cas)
    | .waiting => some (s, .acquire .load)
    | .signaled => some (s, .ret)
  | .cas =>
    match s.state with
    | .idle => some ({ s with state := .signaled }, .ret)
    | .waiting => some (s, .acquire .load)
    | .signaled => some (s, .ret)
  | .acquire pc =>
    match Latch.acquire s.latch pc with
    | (l, some pc) => some ({ s with latch := l }, .acquire pc)
    | (l, none) => some ({ s with latch := l }, .take)
  | .take =>
    match s.waker with
    | none => some (s, .panicked)
    | some w => some ({ s with waker := none }, .store w)
  | .panicked => none
  | .store w => some ({ s with state := .idle }, .release w)
  | .release w => some ({ s with latch := Latch.release s.latch }, .wake w)
  | .wake _ => some (s, .ret)
  | .ret => some (s, .out)

/-- Where the receiver stands in `OneNotifyRx::poll`, called with the waker `w`. -/
inductive RxPc
  | out
  | load (w : Nat)
  | acquire (w : Nat) (pc : LatchPc)
  | reload (w : Nat)
  | setWaiting (w : Nat)
  | checkWaker (w : Nat)
  | setWaker (w : Nat)
  | release (ready : Bool)
  | consume
  | ret (ready : Bool)
  deriving DecidableEq, Repr

def OneNotifyRx.poll (s : OneNotifyInner) : RxPc → Option (OneNotifyInner × RxPc)
  | .out => none
  | .load w => some (s, if s.state = .signaled then .consume else .acquire w .load)
  | .acquire w pc =>
    match Latch.acquire s.latch pc with
    | (l, some pc) => some ({ s with latch := l }, .acquire w pc)
    | (l, none) => some ({ s with latch := l }, .reload w)
  | .reload w =>
    match s.state with
    | .signaled => some (s, .release true)
    | .idle => some (s, .setWaiting w)
    | .waiting => some (s, .checkWaker w)
  | .setWaiting w => some ({ s with state := .waiting }, .checkWaker w)
  | .checkWaker w => some (s, if s.waker = some w then .release false else .setWaker w)
  | .setWaker w => some ({ s with waker := some w }, .release false)
  | .release ready =>
    some ({ s with latch := Latch.release s.latch }, if ready then .consume else .ret false)
  | .consume => some ({ s with state := .idle }, .ret true)
  | .ret _ => some (s, .out)

structure Notify where
  inner : OneNotifyInner
  tx : TxPc
  rx : RxPc
  deriving DecidableEq, Repr

inductive NotifyAct
  | callPulse
  | tx
  | callPoll (w : Nat)
  | rx
  deriving DecidableEq, Repr

def oneNotify : Notify := ⟨⟨.idle, false, none⟩, .out, .out⟩

def Notify.step (s : Notify) : NotifyAct → Option Notify
  | .callPulse => if s.tx = .out then some { s with tx := .load } else none
  | .tx => (OneNotifyTx.pulse s.inner s.tx).map fun (i, pc) => { s with inner := i, tx := pc }
  | .callPoll w => if s.rx = .out then some { s with rx := .load w } else none
  | .rx => (OneNotifyRx.poll s.inner s.rx).map fun (i, pc) => { s with inner := i, rx := pc }

/-- One transmitter and one receiver, interleaved at every atomic operation. -/
def notifyMachine : Machine Notify NotifyAct where
  init s := s = oneNotify
  step := Notify.step

/-- What a user of the pair sees: calls and returns. -/
inductive NotifyEvent
  | pulseStart | pulseEnd
  | pollStart | pollEnd (ready : Bool)
  deriving DecidableEq, Repr

def Notify.event (s : Notify) : NotifyAct → Option NotifyEvent
  | .callPulse => some .pulseStart
  | .tx => if s.tx = .ret then some .pulseEnd else none
  | .callPoll _ => some .pollStart
  | .rx =>
    match s.rx with
    | .ret ready => some (.pollEnd ready)
    | _ => none

end Misc.Sync
