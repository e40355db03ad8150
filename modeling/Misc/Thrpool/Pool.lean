import Mathlib.Logic.Function.Basic
import Mathlib.Tactic.SplitIfs
import Misc.Lib.Machine

namespace Misc.Thrpool
open Misc.Lib
set_option autoImplicit true

abbrev Ptr := Nat

/-- A function with its parameter is known by the number of the call of `thrpool_add_task`. -/
structure Task where
  taskfn : Nat
  next : Option Ptr
  deriving DecidableEq, Repr

/-- Where a thread is in `_task_enq`. Only the owner of `task_m` reads or writes the queue, so
what it does to it between locking and unlocking is one step. -/
inductive EnqPc
  | lock | link | unlock | signal
  deriving DecidableEq, Repr

/-- Where a worker is. From `lockWorker` on it is in `_worker_cleanup`. -/
inductive WorkerPc
  | lock
  | front
  | task0
  | clear
  | broadcast
  | test
  | wait
  | asleep
  | woken
  | take
  | unlock (t : Option Ptr)
  | call (t : Ptr)
  | running (t : Ptr) (k : Nat)
  | again (t : Ptr)
  | enq (pc : EnqPc) (t : Ptr)
  | free (t : Ptr)
  | lockWorker
  | count
  | unlockWorker
  | signalWorker
  | done
  deriving DecidableEq, Repr

inductive AddPc
  | out
  | test
  | malloc
  | enq (pc : EnqPc) (t : Ptr)
  | ret (r : Nat)
  deriving DecidableEq, Repr

inductive WaitPc
  | out | test | lock | front | set | wait | asleep | woken | unlock | ret
  deriving DecidableEq, Repr

inductive DestroyPc
  | out
  | test (wait : Bool)
  | lockTask
  | grab
  | unlockTask (t : Option Ptr)
  | drain (t : Option Ptr)
  | set
  | lock
  | check
  | signal
  | wait
  | asleep
  | woken
  | unlock
  | free
  | ret
  deriving DecidableEq, Repr

inductive Thread
  | worker (i : Nat)
  | adder (k : Nat)
  | waiter (k : Nat)
  | destroyer
  deriving DecidableEq, Repr

/-- A worker starts a function, or the function returns to it and may ask to be run again. -/
inductive Event
  | start (i k : Nat)
  | ret (i k : Nat) (again : Bool)
  deriving DecidableEq, Repr

def Event.task : Event → Nat
  | .start _ k => k
  | .ret _ k _ => k

/-- The pool, the memory of its tasks, its threads and what its workers have run. `freed` tells
that `thrpool_destroy` has given the pool back. A thread that uses it afterwards, that reaches
for a task that is not there or that unlocks a mutex of another thread is at fault. -/
structure Pool where
  min_workers : Nat
  worker_m : Option Thread
  task_m : Option Thread
  destroy : Bool
  running_workers : Int
  wait_task_0 : Bool
  task_front : Option Ptr
  task_rear : Option Ptr
  heap : Ptr → Option Task
  workers : Nat → WorkerPc
  adders : Nat → AddPc
  waiters : Nat → WaitPc
  destroyer : DestroyPc
  log : List Event
  freed : Bool
  faulted : Bool

/-- Each operation on a mutex or a condition variable, each access to a flag and each access to
a task is one step. -/
inductive Act
  | worker (i : Nat)
  | ret (i : Nat) (again : Bool)
  | add (k : Nat)
  | adder (k : Nat)
  | malloc (k : Nat) (t : Ptr)
  | wait (k : Nat)
  | waiter (k : Nat)
  | destroy (wait : Bool)
  | destroyer
  /-- A thread signals `task_c` and wakes a worker, or none if none waits. -/
  | signal (th : Thread) (w : Option Nat)
  /-- A wake-up without a signal. -/
  | spurious (th : Thread)
  deriving DecidableEq, Repr

namespace Pool

def setWorker (p : Pool) (i : Nat) (pc : WorkerPc) : Pool :=
  { p with workers := Function.update p.workers i pc }

def setAdder (p : Pool) (k : Nat) (pc : AddPc) : Pool :=
  { p with adders := Function.update p.adders k pc }

def setWaiter (p : Pool) (k : Nat) (pc : WaitPc) : Pool :=
  { p with waiters := Function.update p.waiters k pc }

def setTask (p : Pool) (t : Ptr) (task : Option Task) : Pool :=
  { p with heap := Function.update p.heap t task }

def fault (p : Pool) : Pool := { p with faulted := true }

def lockTask (p : Pool) (th : Thread) : Option Pool :=
  if p.task_m = none then some { p with task_m := some th } else none

def lockWorker (p : Pool) (th : Thread) : Option Pool :=
  if p.worker_m = none then some { p with worker_m := some th } else none

/-- Only the owner of a mutex may unlock it, or wait on a condition variable with it. -/
def unlockTask (p : Pool) (th : Thread) (go : Pool → Pool) : Pool :=
  if p.task_m = some th then go { p with task_m := none } else p.fault

def unlockWorker (p : Pool) (th : Thread) (go : Pool → Pool) : Pool :=
  if p.worker_m = some th then go { p with worker_m := none } else p.fault

/-- `t->next = next`. -/
def setNext (p : Pool) (t : Ptr) (next : Option Ptr) : Pool :=
  match p.heap t with
  | some task => p.setTask t (some { task with next })
  | none => p.fault

/-- `ti->task_rear->next = t`. -/
def linkRear (p : Pool) (t : Ptr) : Pool :=
  match p.task_rear with
  | some r => p.setNext r (some t)
  | none => p.fault

def link (p : Pool) (t : Ptr) : Pool :=
  { (match p.task_front with
    | none => { p with task_front := some t }
    | some _ => p.linkRear t) with task_rear := some t }

def _task_enq (p : Pool) (th : Thread) (t : Ptr) : EnqPc → Option (Pool × EnqPc)
  | .lock => (p.lockTask th).map fun p => (p, .link)
  | .link => some (p.link t, .unlock)
  | .unlock => some (p.unlockTask th id, .signal)
  | .signal => none

/-- `pthread_cond_signal(&ti->task_c)`. -/
def signalTask (p : Pool) : Option Nat → Option Pool
  | some i => if p.workers i = .asleep then some (p.setWorker i .woken) else none
  | none => if ∀ i < p.min_workers, p.workers i ≠ .asleep then some p else none

/-- `pthread_cond_signal(&ti->worker_c)`. Only the destroyer waits on it. -/
def signalWorker (p : Pool) : Pool :=
  if p.destroyer = .asleep then { p with destroyer := .woken } else p

/-- `pthread_cond_broadcast(&ti->task_0_c)`. -/
def broadcast (p : Pool) : Pool :=
  { p with waiters := fun k => if p.waiters k = .asleep then .woken else p.waiters k }

def take (p : Pool) (i : Nat) : Pool :=
  match p.task_front with
  | none => p.setWorker i (.unlock none)
  | some t =>
    match p.heap t with
    | some task => { p with task_front := task.next }.setWorker i (.unlock (some t))
    | none => p.fault

/-- `t->taskfn(t->param)` starts. -/
def call (p : Pool) (i : Nat) (t : Ptr) : Pool :=
  match p.heap t with
  | some task =>
    { p with log := p.log ++ [Event.start i task.taskfn] }.setWorker i (.running t task.taskfn)
  | none => p.fault

/-- `_worker`, with `_worker_cleanup` at its end. -/
def _worker (p : Pool) (i : Nat) : Option Pool :=
  match p.workers i with
  | .lock => (p.lockTask (.worker i)).map fun p => p.setWorker i .front
  | .front => some (p.setWorker i (if p.task_front = none then .task0 else .take))
  | .task0 => some (p.setWorker i (if p.wait_task_0 then .clear else .test))
  | .clear => some ({ p with wait_task_0 := false }.setWorker i .broadcast)
  | .broadcast => some (p.broadcast.setWorker i .test)
  | .test => some (p.setWorker i (if p.destroy then .take else .wait))
  | .wait => some (p.unlockTask (.worker i) fun p => p.setWorker i .asleep)
  | .asleep => none
  | .woken => (p.lockTask (.worker i)).map fun p => p.setWorker i .front
  | .take => some (p.take i)
  | .unlock none => some (p.unlockTask (.worker i) fun p => p.setWorker i .lockWorker)
  | .unlock (some t) => some (p.unlockTask (.worker i) fun p => p.setWorker i (.call t))
  | .call t => some (p.call i t)
  | .running _ _ => none
  | .again t => some ((p.setNext t none).setWorker i (.enq .lock t))
  | .enq pc t => (p._task_enq (.worker i) t pc).map fun r => r.1.setWorker i (.enq r.2 t)
  | .free t => some ((p.setTask t none).setWorker i .lock)
  | .lockWorker => (p.lockWorker (.worker i)).map fun p => p.setWorker i .count
  | .count =>
    some ({ p with running_workers := p.running_workers - 1 }.setWorker i .unlockWorker)
  | .unlockWorker => some (p.unlockWorker (.worker i) fun p => p.setWorker i .signalWorker)
  | .signalWorker => some (p.signalWorker.setWorker i .done)
  | .done => none

def thrpool_add_task (p : Pool) (k : Nat) : Option Pool :=
  match p.adders k with
  | .test => some (p.setAdder k (if p.destroy then .ret 1 else .malloc))
  | .enq pc t => (p._task_enq (.adder k) t pc).map fun r => r.1.setAdder k (.enq r.2 t)
  | _ => none

def thrpool_wait (p : Pool) (k : Nat) : Option Pool :=
  match p.waiters k with
  | .test => some (p.setWaiter k (if p.destroy then .ret else .lock))
  | .lock => (p.lockTask (.waiter k)).map fun p => p.setWaiter k .front
  | .front => some (p.setWaiter k (if p.task_front = none then .unlock else .set))
  | .set => some ({ p with wait_task_0 := true }.setWaiter k .wait)
  | .wait => some (p.unlockTask (.waiter k) fun p => p.setWaiter k .asleep)
  | .woken => (p.lockTask (.waiter k)).map fun p => p.setWaiter k .unlock
  | .unlock => some (p.unlockTask (.waiter k) fun p => p.setWaiter k .ret)
  | _ => none

/-- `next = t->next; free(t)`. -/
def drain (p : Pool) (t : Ptr) : Pool :=
  match p.heap t with
  | some task => { p.setTask t none with destroyer := .drain task.next }
  | none => p.fault

def thrpool_destroy (p : Pool) : Option Pool :=
  match p.destroyer with
  | .test wait =>
    some { p with destroyer := if p.destroy then .ret else if wait then .set else .lockTask }
  | .lockTask => (p.lockTask .destroyer).map fun p => { p with destroyer := .grab }
  | .grab => some { p with task_front := none, destroyer := .unlockTask p.task_front }
  | .unlockTask t => some (p.unlockTask .destroyer fun p => { p with destroyer := .drain t })
  | .drain (some t) => some (p.drain t)
  | .drain none => some { p with destroyer := .set }
  | .set => some { p with destroy := true, destroyer := .lock }
  | .lock => (p.lockWorker .destroyer).map fun p => { p with destroyer := .check }
  | .check => some { p with destroyer := if 0 < p.running_workers then .signal else .unlock }
  | .wait => some (p.unlockWorker .destroyer fun p => { p with destroyer := .asleep })
  | .woken => (p.lockWorker .destroyer).map fun p => { p with destroyer := .check }
  | .unlock => some (p.unlockWorker .destroyer fun p => { p with destroyer := .free })
  | .free => some { p with freed := true, destroyer := .ret }
  | _ => none

/-- The thread goes on after its signal on `task_c`. -/
def signaled (p : Pool) : Thread → Option Pool
  | .worker i =>
    match p.workers i with
    | .enq .signal _ => some (p.setWorker i .lock)
    | _ => none
  | .adder k =>
    match p.adders k with
    | .enq .signal _ => some (p.setAdder k (.ret 0))
    | _ => none
  | .destroyer => if p.destroyer = .signal then some { p with destroyer := .wait } else none
  | .waiter _ => none

def spurious (p : Pool) : Thread → Option Pool
  | .worker i => if p.workers i = .asleep then some (p.setWorker i .woken) else none
  | .waiter k => if p.waiters k = .asleep then some (p.setWaiter k .woken) else none
  | .destroyer => if p.destroyer = .asleep then some { p with destroyer := .woken } else none
  | .adder _ => none

/-- Whether the next operation of a thread is on the pool. -/
def uses (p : Pool) : Act → Bool
  | .worker i =>
    match p.workers i with
    | .asleep | .call _ | .running _ _ | .again _ | .free _ | .done => false
    | _ => true
  | .adder k =>
    match p.adders k with
    | .out | .malloc | .ret _ => false
    | _ => true
  | .waiter k =>
    match p.waiters k with
    | .out | .asleep | .ret => false
    | _ => true
  | .signal th _ => (p.signaled th).isSome
  | _ => false

def act (p : Pool) : Act → Option Pool
  | .worker i => p._worker i
  | .ret i again =>
    match p.workers i with
    | .running t k =>
      some ({ p with log := p.log ++ [Event.ret i k again] }.setWorker i
        (if again then .again t else .free t))
    | _ => none
  | .add k => if p.adders k = .out then some (p.setAdder k .test) else none
  | .adder k => p.thrpool_add_task k
  | .malloc k t =>
    if p.adders k = .malloc ∧ p.heap t = none then
      some ((p.setTask t (some ⟨k, none⟩)).setAdder k (.enq .lock t))
    else none
  | .wait k => if p.waiters k = .out then some (p.setWaiter k .test) else none
  | .waiter k => p.thrpool_wait k
  | .destroy wait => if p.destroyer = .out then some { p with destroyer := .test wait } else none
  | .destroyer => p.thrpool_destroy
  | .signal th w => (p.signaled th).bind fun p => p.signalTask w
  | .spurious th => p.spurious th

def step (p : Pool) (a : Act) : Option Pool :=
  if p.faulted then none
  else if p.freed ∧ p.uses a then some p.fault
  else p.act a

def create (workers : Nat) : Pool where
  min_workers := workers
  worker_m := none
  task_m := none
  destroy := false
  running_workers := workers
  wait_task_0 := false
  task_front := none
  task_rear := none
  heap _ := none
  workers i := if i < workers then .lock else .done
  adders _ := .out
  waiters _ := .out
  destroyer := .out
  log := []
  freed := false
  faulted := false

variable {p q : Pool}

theorem lockTask_eq {th : Thread} (h : p.lockTask th = some q) :
    p.task_m = none ∧ q = { p with task_m := some th } := by
  rw [lockTask] at h
  split_ifs at h with hm
  exact ⟨hm, (Option.some.inj h).symm⟩

theorem lockWorker_eq {th : Thread} (h : p.lockWorker th = some q) :
    p.worker_m = none ∧ q = { p with worker_m := some th } := by
  rw [lockWorker] at h
  split_ifs at h with hm
  exact ⟨hm, (Option.some.inj h).symm⟩

theorem setNext_eq (p : Pool) (t : Ptr) (next : Option Ptr) :
    ∃ heap faulted, p.setNext t next = { p with heap, faulted } := by
  rw [setNext]
  split <;> exact ⟨_, _, rfl⟩

theorem link_eq (p : Pool) (t : Ptr) : ∃ heap task_front faulted,
    p.link t = { p with heap, task_front, task_rear := some t, faulted } := by
  rw [link]
  cases p.task_front with
  | none => exact ⟨_, _, _, rfl⟩
  | some f =>
    dsimp only
    rw [linkRear]
    cases p.task_rear with
    | none => exact ⟨_, _, _, rfl⟩
    | some r =>
      obtain ⟨heap, faulted, h⟩ := p.setNext_eq r (some t)
      dsimp only
      rw [h]
      exact ⟨_, _, _, rfl⟩

theorem link_front (p : Pool) (t : Ptr) : (p.link t).task_front ≠ none := by
  rw [link]
  cases hf : p.task_front with
  | none => exact nofun
  | some f =>
    dsimp only
    rw [linkRear]
    cases p.task_rear with
    | none => exact hf ▸ nofun
    | some r =>
      obtain ⟨heap, faulted, h⟩ := p.setNext_eq r (some t)
      dsimp only
      rw [h]
      exact hf ▸ nofun

/-- A signal wakes a worker that waits, unless none does. -/
theorem signalTask_eq {w : Option Nat} (h : p.signalTask w = some q) :
    (∃ i, p.workers i = .asleep ∧ q = p.setWorker i .woken) ∨
      q = p ∧ ∀ i < p.min_workers, p.workers i ≠ .asleep := by
  cases w with
  | none =>
    rw [signalTask] at h
    split_ifs at h with hnone
    exact .inr ⟨(Option.some.inj h).symm, hnone⟩
  | some i =>
    rw [signalTask] at h
    split_ifs at h with hi
    exact .inl ⟨i, hi, (Option.some.inj h).symm⟩

/-- The operations of a worker, by the place where it is. -/
inductive Works (p : Pool) (i : Nat) : Pool → Prop
  | lock (hi : p.workers i = .lock) (hm : p.task_m = none) :
      Works p i ({ p with task_m := some (.worker i) }.setWorker i .front)
  | woken (hi : p.workers i = .woken) (hm : p.task_m = none) :
      Works p i ({ p with task_m := some (.worker i) }.setWorker i .front)
  | front (hi : p.workers i = .front) :
      Works p i (p.setWorker i (if p.task_front = none then .task0 else .take))
  | task0 (hi : p.workers i = .task0) :
      Works p i (p.setWorker i (if p.wait_task_0 then .clear else .test))
  | clear (hi : p.workers i = .clear) :
      Works p i ({ p with wait_task_0 := false }.setWorker i .broadcast)
  | broadcast (hi : p.workers i = .broadcast) : Works p i (p.broadcast.setWorker i .test)
  | test (hi : p.workers i = .test) :
      Works p i (p.setWorker i (if p.destroy then .take else .wait))
  | wait (hi : p.workers i = .wait) :
      Works p i (p.unlockTask (.worker i) fun p => p.setWorker i .asleep)
  | take (hi : p.workers i = .take) : Works p i (p.take i)
  | leave (hi : p.workers i = .unlock none) :
      Works p i (p.unlockTask (.worker i) fun p => p.setWorker i .lockWorker)
  | unlock (hi : p.workers i = .unlock (some t)) :
      Works p i (p.unlockTask (.worker i) fun p => p.setWorker i (.call t))
  | call (hi : p.workers i = .call t) : Works p i (p.call i t)
  | again (hi : p.workers i = .again t) :
      Works p i ((p.setNext t none).setWorker i (.enq .lock t))
  | enq (hi : p.workers i = .enq pc t) (hr : p._task_enq (.worker i) t pc = some r) :
      Works p i (r.1.setWorker i (.enq r.2 t))
  | free (hi : p.workers i = .free t) : Works p i ((p.setTask t none).setWorker i .lock)
  | lockWorker (hi : p.workers i = .lockWorker) (hm : p.worker_m = none) :
      Works p i ({ p with worker_m := some (.worker i) }.setWorker i .count)
  | count (hi : p.workers i = .count) :
      Works p i ({ p with running_workers := p.running_workers - 1 }.setWorker i .unlockWorker)
  | unlockWorker (hi : p.workers i = .unlockWorker) :
      Works p i (p.unlockWorker (.worker i) fun p => p.setWorker i .signalWorker)
  | signalWorker (hi : p.workers i = .signalWorker) :
      Works p i (p.signalWorker.setWorker i .done)

theorem works (h : p._worker i = some q) : p.Works i q := by
  rw [_worker] at h
  cases hi : p.workers i with
  | asleep | running _ _ | done =>
    rw [hi] at h
    cases h
  | lock =>
    rw [hi] at h
    obtain ⟨r, hr, rfl⟩ := Option.map_eq_some_iff.1 h
    obtain ⟨hm, rfl⟩ := lockTask_eq hr
    exact .lock hi hm
  | woken =>
    rw [hi] at h
    obtain ⟨r, hr, rfl⟩ := Option.map_eq_some_iff.1 h
    obtain ⟨hm, rfl⟩ := lockTask_eq hr
    exact .woken hi hm
  | unlock t =>
    rw [hi] at h
    cases t with
    | none =>
      cases h
      exact .leave hi
    | some t =>
      cases h
      exact .unlock hi
  | enq pc t =>
    rw [hi] at h
    obtain ⟨r, hr, rfl⟩ := Option.map_eq_some_iff.1 h
    exact .enq hi hr
  | lockWorker =>
    rw [hi] at h
    obtain ⟨r, hr, rfl⟩ := Option.map_eq_some_iff.1 h
    obtain ⟨hm, rfl⟩ := lockWorker_eq hr
    exact .lockWorker hi hm
  | _ =>
    rw [hi] at h
    cases h
    constructor
    exact hi

theorem step_cases {a : Act} (h : p.step a = some q) : q = p.fault ∨ p.act a = some q := by
  rw [step] at h
  split_ifs at h
  · exact .inl (Option.some.inj h).symm
  · exact .inr h

end Pool

def machine (workers : Nat) : Machine Pool Act where
  init p := p = .create workers
  step := Pool.step

theorem exists_update {ws : Nat → WorkerPc} {P : WorkerPc → Prop} {i : Nat} {pc : WorkerPc}
    (h : ∃ j, P (ws j)) (hpc : P (ws i) → P pc) : ∃ j, P (Function.update ws i pc j) := by
  obtain ⟨j, hj⟩ := h
  by_cases he : j = i
  · subst he
    exact ⟨j, by rw [Function.update_self]; exact hpc hj⟩
  · exact ⟨j, by rwa [Function.update_of_ne he]⟩

end Misc.Thrpool
