import Misc.Thrpool.Draining

namespace Misc.Thrpool
open Misc.Lib
set_option autoImplicit true

def WorkerPc.busy : WorkerPc → Bool
  | .unlock (some _) | .call _ | .running _ _ => true
  | _ => false

def WorkerPc.requeues : WorkerPc → Bool
  | .again _ | .enq _ _ => true
  | _ => false

/-- The worker has found the queue empty. -/
def WorkerPc.idles : WorkerPc → Bool
  | .task0 | .clear | .broadcast => true
  | _ => false

theorem WorkerPc.owns_of_idles {pc : WorkerPc} (h : pc.idles = true) : pc.owns = true := by
  cases pc <;> first | rfl | cases h

def AddPc.owns : AddPc → Bool
  | .enq .link _ | .enq .unlock _ => true
  | _ => false

/-- The call has nothing more to wait for. -/
def WaitPc.passed : WaitPc → Bool
  | .woken | .unlock | .ret => true
  | _ => false

namespace Pool

def Idle (p : Pool) : Prop := ∀ i, (p.workers i).busy = false

/-- All calls of `thrpool_add_task` return before `thrpool_wait` is called, all tasks return 0,
and there is neither a wake-up without a signal nor a call of `thrpool_destroy`. -/
def Planned (p : Pool) : Act → Prop
  | .add _ => ∀ k, p.waiters k = .out
  | .wait _ => ∀ k, (p.adders k).active = false
  | .ret _ again => again = false
  | .spurious _ | .destroy _ => False
  | _ => True

/-- No task is being run when `thrpool_wait` finds the queue empty, or when a worker that has
found it empty wakes a call. -/
def Quiet (p : Pool) : Act → Prop
  | .waiter k => p.waiters k = .front → p.task_front = none → p.Idle
  | .worker i => p.workers i = .broadcast → (∃ k, p.waiters k = .asleep) → p.Idle
  | _ => True

/-- The state of a pool in such a run. -/
structure Calm (p : Pool) : Prop where
  out : p.destroyer = .out
  opened : p.destroy = false
  rets : ∀ k r, p.adders k = .ret r → r = 0
  closed : (∃ k, p.waiters k ≠ .out) → ∀ k, (p.adders k).active = false
  once : ∀ i, (p.workers i).requeues = false
  worker : ∀ i, (p.workers i).owns = true → p.task_m = some (.worker i)
  adder : ∀ k, (p.adders k).owns = true → p.task_m = some (.adder k)
  empty : ∀ i, (p.workers i).idles = true → p.task_front = none
  done : ∀ k, (p.waiters k).passed = true → p.task_front = none ∧ p.Idle

/-- What the invariant depends on. -/
structure SameCalm (p q : Pool) : Prop where
  destroyer : q.destroyer = p.destroyer
  destroy : q.destroy = p.destroy
  adders : q.adders = p.adders
  waiters : q.waiters = p.waiters
  workers : q.workers = p.workers
  task_m : q.task_m = p.task_m
  task_front : q.task_front = p.task_front

variable {p q : Pool} {i k : Nat} {pc old : WorkerPc}

theorem Calm.congr (h : p.Calm) (hs : p.SameCalm q) : q.Calm := by
  obtain ⟨hr, hd, ha, hw, hi, hm, hf⟩ := hs
  constructor
  case out => rw [hr]; exact h.out
  case opened => rw [hd]; exact h.opened
  case rets => rw [ha]; exact h.rets
  case closed => rw [hw, ha]; exact h.closed
  case once => rw [hi]; exact h.once
  case worker => rw [hi, hm]; exact h.worker
  case adder => rw [ha, hm]; exact h.adder
  case empty => rw [hi, hf]; exact h.empty
  case done => rw [hw, hf, Idle, hi]; exact h.done

theorem Calm.fault (h : p.Calm) : p.fault.Calm := h.congr ⟨rfl, rfl, rfl, rfl, rfl, rfl, rfl⟩

theorem Calm.set {m : Option Thread} (h : p.Calm) (hi : p.workers i = old)
    (hworker : ∀ j, j ≠ i → (p.workers j).owns = true → m = some (.worker j))
    (hadder : ∀ k, (p.adders k).owns = true → m = some (.adder k))
    (howns : pc.owns = true → m = some (.worker i)) (honce : pc.requeues = false)
    (hempty : pc.idles = true → p.task_front = none) (hbusy : pc.busy = true → old.busy = true) :
    ({ p with task_m := m }.setWorker i pc).Calm := by
  subst hi
  obtain ⟨out, opened, rets, closed, once, worker, adder, empty, done⟩ := h
  constructor
  case closed => exact closed
  case done =>
    intro k hk
    obtain ⟨hfront, hidle⟩ := done k hk
    refine ⟨hfront, fun j => ?_⟩
    dsimp only [setWorker]
    have := hidle j
    grind
  all_goals
    dsimp only [setWorker]
    grind

theorem Calm.move (h : p.Calm) (hi : p.workers i = old)
    (howns : pc.owns = true → old.owns = true)
    (honce : pc.requeues = false) (hempty : pc.idles = true → p.task_front = none)
    (hbusy : pc.busy = true → old.busy = true) : (p.setWorker i pc).Calm := by
  apply h.set hi (fun j _ hj => h.worker j hj) h.adder _ honce hempty hbusy
  intro ho
  exact h.worker i (hi ▸ howns ho)

theorem Calm.lock (h : p.Calm) (hi : p.workers i = old) (hm : p.task_m = none)
    (honce : pc.requeues = false) (hempty : pc.idles = false)
    (hbusy : pc.busy = true → old.busy = true) :
    ({ p with task_m := some (.worker i) }.setWorker i pc).Calm := by
  apply h.set hi _ _ (fun _ => rfl) honce (fun he => by cases hempty.symm.trans he) hbusy
  · intro j _ hj
    cases hm.symm.trans (h.worker j hj)
  · intro k hk
    cases hm.symm.trans (h.adder k hk)

theorem Calm.unlock (h : p.Calm) (hi : p.workers i = old) (howns : pc.owns = false)
    (honce : pc.requeues = false) (hempty : pc.idles = false)
    (hbusy : pc.busy = true → old.busy = true) :
    (p.unlockTask (.worker i) fun p => p.setWorker i pc).Calm := by
  rw [unlockTask]
  split_ifs with hm
  · apply h.set hi _ _ (fun ho => by cases howns.symm.trans ho) honce
      (fun he => by cases hempty.symm.trans he) hbusy
    · intro j hne hj
      cases hm.symm.trans (h.worker j hj)
      exact absurd rfl hne
    · intro k hk
      cases hm.symm.trans (h.adder k hk)
  · exact h.fault

theorem Calm.take (h : p.Calm) (hi : p.workers i = .take) : (p.take i).Calm := by
  rw [Pool.take]
  cases hf : p.task_front with
  | none => exact h.move hi (fun _ => rfl) rfl Bool.false_ne_true.elim Bool.false_ne_true.elim
  | some t =>
    dsimp only
    cases p.heap t with
    | none => exact h.fault
    | some task =>
      obtain ⟨out, opened, rets, closed, once, worker, adder, empty, done⟩ := h
      constructor
      case closed => exact closed
      case done =>
        intro k hk
        cases hf.symm.trans (done k hk).1
      all_goals
        dsimp only [setWorker]
        grind [WorkerPc.owns, WorkerPc.requeues, WorkerPc.idles]

theorem Calm.broadcast (h : p.Calm) (hi : p.workers i = .broadcast) (hq : p.Quiet (.worker i)) :
    p.broadcast.Calm := by
  obtain ⟨out, opened, rets, closed, once, worker, adder, empty, done⟩ := h
  have hfront := empty i (hi ▸ rfl)
  constructor
  case closed =>
    rintro ⟨k, hk⟩
    apply closed
    refine ⟨k, fun hout => hk ?_⟩
    dsimp only [Pool.broadcast]
    rw [if_neg (by simp [hout]), hout]
  case done =>
    intro k hk
    dsimp only [Pool.broadcast] at hk
    split_ifs at hk with hsleep
    · exact ⟨hfront, hq hi ⟨k, hsleep⟩⟩
    · exact done k hk
  all_goals assumption

theorem Calm.work (h : p.Calm) (hq : p.Quiet (.worker i)) (hs : p._worker i = some q) :
    q.Calm := by
  cases works hs with
  | lock hi hm | woken hi hm => exact h.lock hi hm rfl rfl Bool.false_ne_true.elim
  | front hi =>
    split_ifs with hf
    · exact h.move hi (fun _ => rfl) rfl (fun _ => hf) Bool.false_ne_true.elim
    · exact h.move hi (fun _ => rfl) rfl Bool.false_ne_true.elim Bool.false_ne_true.elim
  | task0 hi =>
    split_ifs
    · exact h.move hi (fun _ => rfl) rfl (fun _ => h.empty i (hi ▸ rfl)) Bool.false_ne_true.elim
    · exact h.move hi (fun _ => rfl) rfl Bool.false_ne_true.elim Bool.false_ne_true.elim
  | test hi =>
    split_ifs <;>
    exact h.move hi (fun _ => rfl) rfl Bool.false_ne_true.elim Bool.false_ne_true.elim
  | clear hi =>
    have h' := h.congr (q := { p with wait_task_0 := false }) ⟨rfl, rfl, rfl, rfl, rfl, rfl, rfl⟩
    exact h'.move hi (fun _ => rfl) rfl (fun _ => h.empty i (hi ▸ rfl)) Bool.false_ne_true.elim
  | broadcast hi =>
    exact (h.broadcast hi hq).move hi (fun _ => rfl) rfl Bool.false_ne_true.elim
      Bool.false_ne_true.elim
  | wait hi | leave hi => exact h.unlock hi rfl rfl rfl Bool.false_ne_true.elim
  | unlock hi => exact h.unlock hi rfl rfl rfl fun _ => rfl
  | take hi => exact h.take hi
  | @call t hi =>
    rw [call]
    cases p.heap t with
    | none => exact h.fault
    | some task =>
      have h' := h.congr (q := { p with log := p.log ++ [Event.start i task.taskfn] })
        ⟨rfl, rfl, rfl, rfl, rfl, rfl, rfl⟩
      exact h'.move hi Bool.false_ne_true.elim rfl Bool.false_ne_true.elim fun _ => rfl
  | again hi => cases (h.once i).symm.trans (congrArg WorkerPc.requeues hi)
  | enq hi => cases (h.once i).symm.trans (congrArg WorkerPc.requeues hi)
  | @free t hi =>
    have h' := h.congr (q := p.setTask t none) ⟨rfl, rfl, rfl, rfl, rfl, rfl, rfl⟩
    exact h'.move hi Bool.false_ne_true.elim rfl Bool.false_ne_true.elim Bool.false_ne_true.elim
  | lockWorker hi =>
    have h' :=
      h.congr (q := { p with worker_m := some (.worker i) }) ⟨rfl, rfl, rfl, rfl, rfl, rfl, rfl⟩
    exact h'.move hi Bool.false_ne_true.elim rfl Bool.false_ne_true.elim Bool.false_ne_true.elim
  | count hi =>
    have h' := h.congr (q := { p with running_workers := p.running_workers - 1 })
      ⟨rfl, rfl, rfl, rfl, rfl, rfl, rfl⟩
    exact h'.move hi Bool.false_ne_true.elim rfl Bool.false_ne_true.elim Bool.false_ne_true.elim
  | unlockWorker hi =>
    rw [unlockWorker]
    split_ifs
    · have h' := h.congr (q := { p with worker_m := none }) ⟨rfl, rfl, rfl, rfl, rfl, rfl, rfl⟩
      exact h'.move hi Bool.false_ne_true.elim rfl Bool.false_ne_true.elim
        Bool.false_ne_true.elim
    · exact h.fault
  | signalWorker hi =>
    rw [signalWorker, if_neg (by simp [h.out])]
    exact h.move hi Bool.false_ne_true.elim rfl Bool.false_ne_true.elim Bool.false_ne_true.elim

theorem Calm.setAdder {m : Option Thread} {front : Option Ptr} {pc : AddPc} (h : p.Calm)
    (hwait : ∀ k, p.waiters k = .out)
    (hworker : ∀ i, (p.workers i).owns = true → m = some (.worker i))
    (hadder : ∀ j, j ≠ k → (p.adders j).owns = true → m = some (.adder j))
    (howns : pc.owns = true → m = some (.adder k)) (hret : ∀ r, pc = .ret r → r = 0)
    (hfront : front = p.task_front ∨ m = some (.adder k)) :
    ({ p with task_m := m, task_front := front }.setAdder k pc).Calm := by
  obtain ⟨out, opened, rets, closed, once, worker, adder, empty, done⟩ := h
  constructor
  case closed =>
    rintro ⟨j, hj⟩
    exact absurd (hwait j) hj
  case done =>
    intro j hj
    dsimp only [Pool.setAdder] at hj
    rw [hwait j] at hj
    cases hj
  case empty =>
    intro i hi
    dsimp only [Pool.setAdder] at hi ⊢
    rcases hfront with rfl | hm
    · exact empty i hi
    · cases hm.symm.trans (hworker i (WorkerPc.owns_of_idles hi))
  all_goals
    dsimp only [Pool.setAdder]
    grind

theorem Calm.nobody (h : p.Calm) (hk : (p.adders k).active = true) (j : Nat) :
    p.waiters j = .out := by
  by_contra hj
  cases hk.symm.trans (h.closed ⟨j, hj⟩ k)

theorem Calm.moveAdder {pc : AddPc} (h : p.Calm) (hwait : ∀ j, p.waiters j = .out)
    (howns : pc.owns = true → (p.adders k).owns = true) (hret : ∀ r, pc = .ret r → r = 0) :
    (p.setAdder k pc).Calm :=
  h.setAdder hwait h.worker (fun j _ hj => h.adder j hj) (fun ho => h.adder k (howns ho)) hret
    (Or.inl rfl)

theorem Calm.add (h : p.Calm) (hs : p.thrpool_add_task k = some q) : q.Calm := by
  rw [thrpool_add_task] at hs
  cases hk : p.adders k with
  | test =>
    rw [hk, h.opened] at hs
    cases hs
    exact h.moveAdder (h.nobody (k := k) (hk ▸ rfl)) Bool.false_ne_true.elim (by simp)
  | enq pc t =>
    rw [hk] at hs
    have hwait := h.nobody (k := k) (hk ▸ rfl)
    obtain ⟨r, hr, rfl⟩ := Option.map_eq_some_iff.1 hs
    cases pc with
    | lock =>
      obtain ⟨r', hr', rfl⟩ := Option.map_eq_some_iff.1 hr
      obtain ⟨hm, rfl⟩ := lockTask_eq hr'
      refine h.setAdder hwait ?_ ?_ (fun _ => rfl) (by simp) (Or.inl rfl)
      · intro i hi
        cases hm.symm.trans (h.worker i hi)
      · intro j _ hj
        cases hm.symm.trans (h.adder j hj)
    | link =>
      cases hr
      have hm := h.adder k (hk ▸ rfl)
      obtain ⟨heap, front, faulted, he⟩ := p.link_eq t
      rw [he]
      have h' := h.congr (q := { p with heap, task_rear := some t, faulted })
        ⟨rfl, rfl, rfl, rfl, rfl, rfl, rfl⟩
      exact h'.setAdder hwait h'.worker (fun j _ hj => h'.adder j hj) (fun _ =>
        hm) (by simp) (Or.inr hm)
    | unlock =>
      cases hr
      have hm := h.adder k (hk ▸ rfl)
      dsimp only
      rw [unlockTask, if_pos hm]
      refine h.setAdder hwait ?_ ?_ Bool.false_ne_true.elim (by simp) (Or.inl rfl)
      · intro i hi
        cases hm.symm.trans (h.worker i hi)
      · intro j hne hj
        cases hm.symm.trans (h.adder j hj)
        exact absurd rfl hne
    | signal => cases hr
  | out | malloc | ret r =>
    rw [hk] at hs
    cases hs

theorem Calm.setWaiter {m : Option Thread} {pc : WaitPc} (h : p.Calm)
    (hclosed : ∀ j, (p.adders j).active = false)
    (hworker : ∀ i, (p.workers i).owns = true → m = some (.worker i))
    (hpass : pc.passed = true → p.task_front = none ∧ p.Idle) :
    ({ p with task_m := m }.setWaiter k pc).Calm := by
  obtain ⟨out, opened, rets, closed, once, worker, adder, empty, done⟩ := h
  have hquiet (j : Nat) : (p.adders j).owns = false := by
    have hj := hclosed j
    cases hp : p.adders j with
    | enq pc t =>
      rw [hp] at hj
      cases hj
    | _ => rfl
  refine ⟨out, opened, rets, fun _ => hclosed, once, hworker, fun j hj =>
    ?_, empty, fun j hj => ?_⟩
  · cases (hquiet j).symm.trans hj
  · dsimp only [Pool.setWaiter] at hj
    by_cases hjk : j = k
    · rw [hjk, Function.update_self] at hj
      exact hpass hj
    · rw [Function.update_of_ne hjk] at hj
      exact done j hj

theorem Calm.unlockWaiter {pc : WaitPc} (h : p.Calm) (hclosed : ∀ j, (p.adders j).active = false)
    (hpass : pc.passed = true → p.task_front = none ∧ p.Idle) :
    (p.unlockTask (.waiter k) fun p => p.setWaiter k pc).Calm := by
  rw [unlockTask]
  split_ifs with hm
  · refine h.setWaiter hclosed (fun i hi => ?_) hpass
    cases hm.symm.trans (h.worker i hi)
  · exact h.fault

theorem Calm.wait (h : p.Calm) (hq : p.Quiet (.waiter k)) (hs : p.thrpool_wait k = some q) :
    q.Calm := by
  rw [thrpool_wait] at hs
  have hclosed (hout : p.waiters k ≠ .out) : ∀ j, (p.adders j).active = false :=
    h.closed ⟨k, hout⟩
  cases hk : p.waiters k with
  | test =>
    rw [hk, h.opened] at hs
    cases hs
    exact h.setWaiter (hclosed (by simp [hk])) h.worker Bool.false_ne_true.elim
  | front =>
    rw [hk] at hs
    cases hs
    split_ifs with hf
    · exact h.setWaiter (hclosed (by simp [hk])) h.worker fun _ => ⟨hf, hq hk hf⟩
    · exact h.setWaiter (hclosed (by simp [hk])) h.worker Bool.false_ne_true.elim
  | set =>
    rw [hk] at hs
    cases hs
    have h' := h.congr (q := { p with wait_task_0 := true }) ⟨rfl, rfl, rfl, rfl, rfl, rfl, rfl⟩
    exact h'.setWaiter (hclosed (by simp [hk])) h'.worker Bool.false_ne_true.elim
  | lock =>
    rw [hk] at hs
    obtain ⟨r, hr, rfl⟩ := Option.map_eq_some_iff.1 hs
    obtain ⟨hm, rfl⟩ := lockTask_eq hr
    refine h.setWaiter (hclosed (by simp [hk])) (fun i hi => ?_) Bool.false_ne_true.elim
    cases hm.symm.trans (h.worker i hi)
  | woken =>
    rw [hk] at hs
    obtain ⟨r, hr, rfl⟩ := Option.map_eq_some_iff.1 hs
    obtain ⟨hm, rfl⟩ := lockTask_eq hr
    refine h.setWaiter (hclosed (by simp [hk])) (fun i hi => ?_) fun _ => h.done k (hk ▸ rfl)
    cases hm.symm.trans (h.worker i hi)
  | wait =>
    rw [hk] at hs
    cases hs
    exact h.unlockWaiter (hclosed (by simp [hk])) Bool.false_ne_true.elim
  | unlock =>
    rw [hk] at hs
    cases hs
    exact h.unlockWaiter (hclosed (by simp [hk])) fun _ => h.done k (hk ▸ rfl)
  | out | asleep | ret =>
    rw [hk] at hs
    cases hs

theorem Calm.signaled {th : Thread} (h : p.Calm) (hs : p.signaled th = some q) : q.Calm := by
  cases th with
  | worker i =>
    rw [Pool.signaled] at hs
    split at hs
    case h_2 => cases hs
    case h_1 t hi => cases (h.once i).symm.trans (congrArg WorkerPc.requeues hi)
  | adder k =>
    rw [Pool.signaled] at hs
    split at hs
    case h_2 => cases hs
    case h_1 t hk =>
      cases hs
      apply h.moveAdder (h.nobody (k := k) (hk ▸ rfl)) Bool.false_ne_true.elim
      intro r hr
      cases hr
      rfl
  | destroyer =>
    rw [Pool.signaled, if_neg (by simp [h.out])] at hs
    cases hs
  | waiter k => cases hs

theorem Calm.act {a : Act} (h : p.Calm) (hp : p.Planned a) (hq : p.Quiet a)
    (hs : p.act a = some q) : q.Calm := by
  cases a with
  | worker i => exact h.work hq hs
  | adder k => exact h.add hs
  | waiter k => exact h.wait hq hs
  | spurious th => cases hp
  | destroy wait => cases hp
  | destroyer =>
    rw [Pool.act, thrpool_destroy, h.out] at hs
    cases hs
  | signal th w =>
    obtain ⟨r, hr, hs⟩ := Option.bind_eq_some_iff.1 hs
    have h := h.signaled hr
    rcases signalTask_eq hs with ⟨i, hi, rfl⟩ | ⟨rfl, -⟩
    · exact h.move hi Bool.false_ne_true.elim rfl Bool.false_ne_true.elim Bool.false_ne_true.elim
    · exact h
  | ret i again =>
    obtain rfl : again = false := hp
    rw [Pool.act] at hs
    split at hs
    case h_2 => cases hs
    case h_1 t k hi =>
      cases hs
      have h' := h.congr (q := { p with log := p.log ++ [Event.ret i k false] })
        ⟨rfl, rfl, rfl, rfl, rfl, rfl, rfl⟩
      exact h'.move hi Bool.false_ne_true.elim rfl Bool.false_ne_true.elim
        Bool.false_ne_true.elim
  | add k =>
    simp only [Pool.act, Option.ite_none_right_eq_some] at hs
    obtain ⟨-, hs⟩ := hs
    cases hs
    exact h.moveAdder hp Bool.false_ne_true.elim (by simp)
  | malloc k t =>
    simp only [Pool.act, Option.ite_none_right_eq_some] at hs
    obtain ⟨⟨hk, -⟩, hs⟩ := hs
    cases hs
    have h' := h.congr (q := p.setTask t (some ⟨k, none⟩)) ⟨rfl, rfl, rfl, rfl, rfl, rfl, rfl⟩
    exact h'.moveAdder (h'.nobody (k := k) (hk ▸ rfl)) Bool.false_ne_true.elim (by simp)
  | wait k =>
    simp only [Pool.act, Option.ite_none_right_eq_some] at hs
    obtain ⟨-, hs⟩ := hs
    cases hs
    exact h.setWaiter hp h.worker Bool.false_ne_true.elim

theorem Calm.step {a : Act} (h : p.Calm) (hp : p.Planned a) (hq : p.Quiet a)
    (hs : p.step a = some q) : q.Calm := by
  rcases step_cases hs with rfl | hs
  · exact h.fault
  · exact h.act hp hq hs

theorem Calm.create (workers : Nat) : (create workers).Calm := by
  refine ⟨rfl, rfl, nofun, fun h => absurd rfl h.choose_spec, ?_, ?_,
    nofun, fun _ _ => rfl, nofun⟩
  all_goals
    dsimp only [Pool.create]
    grind [WorkerPc.owns, WorkerPc.requeues]

theorem WorkerPc.free_of_task {pc : WorkerPc} {t : Ptr} (hbusy : pc.busy = false)
    (honce : pc.requeues = false) (ht : pc.task = some t) : pc = .free t := by
  cases pc with
  | free t' =>
    cases ht
    rfl
  | unlock t' =>
    cases ht
    cases hbusy
  | call _ | running _ _ => cases hbusy
  | again _ | enq _ _ => cases honce
  | _ => cases ht

/-- With an empty queue and no task being run every task that was added is finished. -/
theorem Tasks.finished_of_idle (h : p.Tasks) (hc : p.Calm)
    (hf : p.task_front = none) (hidle : p.Idle)
    (hclosed : ∀ j, (p.adders j).active = false) (hk : p.adders k ≠ .out) :
    Finished k (runs p.log k) := by
  obtain ⟨ts, place, h⟩ := h
  have hret : p.adders k = .ret 0 := by
    have hactive := hclosed k
    cases hp : p.adders k with
    | out => exact absurd hp hk
    | ret r => rw [hc.rets k r hp]
    | test | malloc | enq pc t =>
      rw [hp] at hactive
      cases hactive
  rcases h.logged.kept k (hret ▸ rfl) with hfin | ⟨t, ht⟩
  · exact hfin
  · cases hpl : place t with
    | none =>
      have hnone := (h.stored.live t).1 hpl
      rw [nexts, Option.map_eq_none_iff] at hnone
      rw [fns, hnone] at ht
      cases ht
    | some pl =>
      cases pl with
      | queued =>
        have hlinked := h.stored.linked
        rw [hf] at hlinked
        have hmem := (h.stored.queued t).2 hpl
        rw [hlinked.front_none] at hmem
        cases hmem
      | worker i =>
        have htask := (h.held.worker i t).2 hpl
        have hstand := h.logged.standing t k _ ht hpl
        rw [Standing, WorkerPc.free_of_task (hidle i) (hc.once i) htask] at hstand
        exact hstand
      | adder j =>
        have htask := (h.held.adder j t).2 hpl
        rw [AddPc.task_of_idle (hclosed j)] at htask
        cases htask

end Pool

/-- Every step is one of such a run, and no task is being run when a call is told that the queue
is empty. -/
def Pool.Timely (p : Pool) (a : Act) : Prop := p.Planned a ∧ p.Quiet a

/-- When `thrpool_wait` returns, every task that was added is finished. -/
theorem waited {workers : Nat} {p : Pool} (h : (machine workers).ReachIf Pool.Timely p) {k : Nat}
    (hk : p.waiters k = .ret) {j : Nat} (hj : p.adders j ≠ .out) :
    Finished j (runs p.log j) := by
  have hinv : p.Calm ∧ p.Tasks := by
    refine h.invariant (I := fun p => p.Calm ∧ p.Tasks) ?_ ?_
    · rintro _ rfl
      exact ⟨.create workers, .create workers⟩
    · rintro p a q ⟨hc, ht⟩ ⟨hp, hq⟩ hs
      exact ⟨hc.step hp hq hs, ht.step (by rw [hc.out]; rfl) hs⟩
  obtain ⟨hc, ht⟩ := hinv
  obtain ⟨hf, hidle⟩ := hc.done k (hk ▸ rfl)
  exact ht.finished_of_idle hc hf hidle (hc.closed ⟨k, hk ▸ nofun⟩) hj

/-- A step that is timely whatever the other threads do. -/
def Pool.Still (p : Pool) : Act → Prop
  | .adder _ | .malloc _ _ | .signal _ _ => True
  | .worker i => p.workers i ≠ .broadcast
  | .waiter k => p.waiters k ≠ .front
  | .ret _ again => again = false
  | _ => False

instance (p : Pool) (a : Act) : Decidable (p.Still a) := by
  unfold Pool.Still
  split <;> infer_instance

theorem Pool.Still.timely {p : Pool} {a : Act} (h : p.Still a) : p.Timely a := by
  cases a with
  | worker i => exact ⟨trivial, fun hi => absurd hi h⟩
  | waiter k => exact ⟨trivial, fun hk => absurd hk h⟩
  | ret i again => exact ⟨h, trivial⟩
  | adder _ | malloc _ _ | signal _ _ | destroyer => exact ⟨trivial, trivial⟩
  | add _ | wait _ | spurious _ | destroy _ => cases h

def starting : List Act := adding.tail ++ List.replicate 5 (.worker 0)

def returning : List Act := starting ++ [.ret 0 false, .worker 0]

/-- A task has been added, the worker has taken the given steps, and a call of `thrpool_wait` is
about to look at the queue. -/
def lookingAt (as : List Act) : Option Pool :=
  ((machine 1).execIf Pool.Still ((Pool.create 1).setAdder 0 .test) as).bind fun p =>
    ((machine 1).step p (.wait 0)).bind fun p =>
      (machine 1).execIf Pool.Still p [.waiter 0, .waiter 0]

theorem looking_run {as : List Act} {r : Pool} (hr : lookingAt as = some r)
    (hclosed : ∀ k, ((machine 1).execIf Pool.Still ((Pool.create 1).setAdder 0 .test) as).map
      (fun p => (p.adders k).active) = some false) :
    (machine 1).ReachIf Pool.Timely r := by
  obtain ⟨q, hq, hr⟩ := Option.bind_eq_some_iff.1 hr
  obtain ⟨s, hs, hr⟩ := Option.bind_eq_some_iff.1 hr
  have hadd : (Pool.create 1).Timely (.add 0) := ⟨fun _ => rfl, trivial⟩
  have hfirst : (machine 1).RunIf Pool.Timely (.create 1) (.add 0 :: as) q :=
    .cons hadd rfl ((Machine.RunIf.of_execIf hq).mono fun _ _ h => h.timely)
  have hwait : q.Timely (.wait 0) := by
    refine ⟨fun k => ?_, trivial⟩
    have hk := hclosed k
    rw [hq] at hk
    exact Option.some.inj hk
  exact ⟨_, _, rfl, hfirst.append (.cons hwait hs
    ((Machine.RunIf.of_execIf hr).mono fun _ _ h => h.timely))⟩

theorem waited_one : ∃ p, (machine 1).ReachIf Pool.Timely p ∧ p.waiters 0 = .ret ∧
    p.adders 0 ≠ .out ∧ Finished 0 (runs p.log 0) := by
  have hclosed (k : Nat) : ((machine 1).execIf Pool.Still ((Pool.create 1).setAdder 0 .test)
      returning).map (fun p => (p.adders k).active) = some false := by
    cases k <;> rfl
  have hidle (i : Nat) :
      (lookingAt returning).map (fun p => (p.workers i).busy) = some false := by
    cases i <;> rfl
  have hrest :
      (lookingAt returning).bind (fun p => ((machine 1).step p (.waiter 0)).bind fun p =>
      ((machine 1).execIf Pool.Still p [.waiter 0]).map fun p => (p.waiters 0, p.adders 0)) =
        some (.ret, .ret 0) := by
    decide +kernel
  obtain ⟨p, hp, hrest⟩ := Option.bind_eq_some_iff.1 hrest
  obtain ⟨q, hq, hrest⟩ := Option.bind_eq_some_iff.1 hrest
  obtain ⟨r, hr, hfinal⟩ := Option.map_eq_some_iff.1 hrest
  obtain ⟨hk, hj⟩ := Prod.mk.inj hfinal
  rw [hp] at hidle
  obtain ⟨s, as, hs, hrun⟩ := looking_run hp hclosed
  have htimely : p.Timely (.waiter 0) := ⟨trivial, fun _ _ i => Option.some.inj (hidle i)⟩
  have hreach : (machine 1).ReachIf Pool.Timely r := ⟨s, _, hs,
    hrun.append (.cons htimely hq ((Machine.RunIf.of_execIf hr).mono fun _ _ h => h.timely))⟩
  have hadded : r.adders 0 ≠ .out := hj ▸ nofun
  exact ⟨r, hreach, hk, hadded, waited hreach hk hadded⟩

/-- The call returns while the task is being run. -/
theorem returns_early :
    ¬ ∀ (workers : Nat) (p : Pool), (machine workers).ReachIf Pool.Planned p →
    ∀ k j, p.waiters k = .ret → p.adders j ≠ .out → Finished j (runs p.log j) := by
  intro h
  have hclosed (k : Nat) : ((machine 1).execIf Pool.Still ((Pool.create 1).setAdder 0 .test)
      starting).map (fun p => (p.adders k).active) = some false := by
    cases k <;> rfl
  have hrest : (lookingAt starting).bind (fun p => ((machine 1).step p (.waiter 0)).bind fun p =>
      ((machine 1).step p (.waiter 0)).map fun p => (p.waiters 0, p.adders 0, p.log)) =
        some (.ret, .ret 0, [.start 0 0]) := by
    decide +kernel
  obtain ⟨p, hp, hrest⟩ := Option.bind_eq_some_iff.1 hrest
  obtain ⟨q, hq, hrest⟩ := Option.bind_eq_some_iff.1 hrest
  obtain ⟨r, hr, hfinal⟩ := Option.map_eq_some_iff.1 hrest
  obtain ⟨hk, hfinal⟩ := Prod.mk.inj hfinal
  obtain ⟨hj, hlog⟩ := Prod.mk.inj hfinal
  obtain ⟨s, as, hs, hrun⟩ := looking_run hp hclosed
  have hplanned (p : Pool) : p.Planned (.waiter 0) := trivial
  have hreach : (machine 1).ReachIf Pool.Planned r := ⟨s, _, hs,
    (hrun.mono fun _ _ h => h.1).append (.cons (hplanned p) hq (.cons (hplanned q) hr (.nil _)))⟩
  have hfin := h 1 r hreach 0 0 hk (hj ▸ nofun)
  rw [hlog] at hfin
  generalize hes : runs [Event.start 0 0] 0 = es at hfin
  obtain ⟨hpaused⟩ := hfin
  have hlen := congrArg List.length hes
  rw [List.length_append] at hlen
  have hone : (runs [Event.start 0 0] 0).length = 1 := rfl
  rw [hone] at hlen
  simp only [List.length_cons, List.length_nil] at hlen
  omega

end Misc.Thrpool
