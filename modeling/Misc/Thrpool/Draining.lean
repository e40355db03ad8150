import Misc.Thrpool.Ledger

namespace Misc.Thrpool
open Misc.Lib
set_option autoImplicit true

namespace Pool

/-- Every task is accounted for. -/
def Tasks (p : Pool) : Prop :=
  ∃ ts place, Ledger p.heap p.task_front p.task_rear p.log p.workers p.adders ts place

variable {p q : Pool} {i : Nat} {pc old : WorkerPc}

theorem Tasks.move (h : p.Tasks) (hi : p.workers i = old) (htask : pc.task = old.task)
    (hstand : ∀ k es, old.Standing i k es → pc.Standing i k es) (hrun : ∀ t k, pc ≠ .running t k)
    (hready : ∀ t, pc = .enq .lock t ∨ pc = .enq .link t → old = .enq .lock t) :
    (p.setWorker i pc).Tasks := by
  obtain ⟨ts, place, h⟩ := h
  exact ⟨ts, place, h.move hi htask hstand hrun hready⟩

theorem Tasks.unlock (h : p.Tasks) (hi : p.workers i = old) (htask : pc.task = old.task)
    (hstand : ∀ k es, old.Standing i k es → pc.Standing i k es) (hrun : ∀ t k, pc ≠ .running t k)
    (hready : ∀ t, pc = .enq .lock t ∨ pc = .enq .link t → old = .enq .lock t) :
    (p.unlockTask (.worker i) fun p => p.setWorker i pc).Tasks := by
  rw [unlockTask]
  split_ifs
  · obtain ⟨ts, place, h⟩ := h
    exact ⟨ts, place, h.move hi htask hstand hrun hready⟩
  · exact h

theorem Tasks.take (h : p.Tasks) (hi : p.workers i = .take) : (p.take i).Tasks := by
  rw [Pool.take]
  cases hf : p.task_front with
  | none => exact h.move hi rfl (fun _ _ h => h) (by simp) (by simp)
  | some t =>
    dsimp only
    cases ht : p.heap t with
    | none => exact h
    | some task =>
      obtain ⟨ts, place, h⟩ := h
      rw [hf] at h
      obtain ⟨ts', h⟩ := h.take hi ht
      exact ⟨ts', _, h⟩

theorem Tasks.worker (h : p.Tasks) (hs : p._worker i = some q) : q.Tasks := by
  cases works hs with
  | lock hi | woken hi | clear hi | broadcast hi | lockWorker hi | count hi =>
    obtain ⟨ts, place, h⟩ := h
    exact ⟨ts, place, h.move hi rfl (fun _ _ h => h) (by simp) (by simp)⟩
  | front hi | task0 hi | test hi =>
    split_ifs <;> exact h.move hi rfl (fun _ _ h => h) (by simp) (by simp)
  | wait hi | leave hi | unlock hi => exact h.unlock hi rfl (fun _ _ h => h) (by simp) (by simp)
  | take hi => exact h.take hi
  | @call t hi =>
    obtain ⟨ts, place, h⟩ := h
    obtain ⟨task, ht⟩ := h.task_of (i := i) (t := t) (hi ▸ rfl)
    rw [call, ht]
    exact ⟨ts, place, h.call hi ht⟩
  | @again t hi =>
    obtain ⟨ts, place, h⟩ := h
    obtain ⟨task, ht⟩ := h.task_of (i := i) (t := t) (hi ▸ rfl)
    rw [setNext, ht]
    exact ⟨ts, place, h.again hi ht⟩
  | @enq pc t r hi hr =>
    cases pc with
    | lock =>
      obtain ⟨r', hr', rfl⟩ := Option.map_eq_some_iff.1 hr
      obtain ⟨hm, rfl⟩ := lockTask_eq hr'
      obtain ⟨ts, place, h⟩ := h
      refine ⟨ts, place, h.move hi rfl (fun _ _ h => h) (by simp) ?_⟩
      rintro _ (h | h) <;> cases h
      rfl
    | link =>
      cases hr
      obtain ⟨ts, place, h⟩ := h
      obtain ⟨ts', h⟩ := h.link_worker hi
      obtain ⟨heap, front, faulted, he⟩ := p.link_eq t
      rw [he] at h ⊢
      exact ⟨ts', _, h⟩
    | unlock =>
      cases hr
      dsimp only
      rw [unlockTask]
      obtain ⟨ts, place, h⟩ := h
      split_ifs <;> exact ⟨ts, place, h.move hi rfl (fun _ _ h => h) (by simp) (by simp)⟩
    | signal => cases hr
  | free hi =>
    obtain ⟨ts, place, h⟩ := h
    exact ⟨ts, _, h.free hi⟩
  | unlockWorker hi =>
    rw [unlockWorker]
    obtain ⟨ts, place, h'⟩ := h
    split_ifs
    · exact ⟨ts, place, h'.move hi rfl (fun _ _ h => h) (by simp) (by simp)⟩
    · exact ⟨ts, place, h'⟩
  | signalWorker hi =>
    rw [signalWorker]
    obtain ⟨ts, place, h⟩ := h
    split_ifs <;> exact ⟨ts, place, h.move hi rfl (fun _ _ h => h) (by simp) (by simp)⟩

theorem Tasks.setAdder {k : Nat} {pc : AddPc} (h : p.Tasks) (htask : pc.task = (p.adders k).task)
    (hent : pc.entered = (p.adders k).entered)
    (hready : ∀ t, pc = .enq .lock t ∨ pc = .enq .link t → p.adders k = .enq .lock t) :
    (p.setAdder k pc).Tasks := by
  obtain ⟨ts, place, h⟩ := h
  exact ⟨ts, place, h.setAdder htask hent hready⟩

theorem Tasks.adder {k : Nat} (h : p.Tasks) (hs : p.thrpool_add_task k = some q) : q.Tasks := by
  rw [thrpool_add_task] at hs
  cases hk : p.adders k with
  | test =>
    rw [hk] at hs
    cases hs
    split_ifs <;> exact h.setAdder (hk ▸ rfl) (hk ▸ rfl) (by simp)
  | enq pc t =>
    rw [hk] at hs
    obtain ⟨r, hr, rfl⟩ := Option.map_eq_some_iff.1 hs
    cases pc with
    | lock =>
      obtain ⟨r', hr', rfl⟩ := Option.map_eq_some_iff.1 hr
      obtain ⟨hm, rfl⟩ := lockTask_eq hr'
      obtain ⟨ts, place, h⟩ := h
      refine ⟨ts, place, h.setAdder (hk ▸ rfl) (hk ▸ rfl) ?_⟩
      rintro _ (h | h) <;> cases h
      exact hk
    | link =>
      cases hr
      obtain ⟨ts, place, h⟩ := h
      obtain ⟨ts', h⟩ := h.link_adder hk
      obtain ⟨heap, front, faulted, he⟩ := p.link_eq t
      rw [he] at h ⊢
      exact ⟨ts', _, h⟩
    | unlock =>
      cases hr
      dsimp only
      rw [unlockTask]
      obtain ⟨ts, place, h⟩ := h
      split_ifs <;> exact ⟨ts, place, h.setAdder (hk ▸ rfl) (hk ▸ rfl) (by simp)⟩
    | signal => cases hr
  | out | malloc | ret r =>
    rw [hk] at hs
    cases hs

theorem Tasks.waiter {k : Nat} (h : p.Tasks) (hs : p.thrpool_wait k = some q) : q.Tasks := by
  rw [thrpool_wait] at hs
  cases hk : p.waiters k with
  | test | front | set =>
    rw [hk] at hs
    cases hs
    exact h
  | lock | woken =>
    rw [hk] at hs
    obtain ⟨r, hr, rfl⟩ := Option.map_eq_some_iff.1 hs
    obtain ⟨-, rfl⟩ := lockTask_eq hr
    exact h
  | wait | unlock =>
    rw [hk] at hs
    cases hs
    rw [unlockTask]
    split_ifs <;> exact h
  | out | asleep | ret =>
    rw [hk] at hs
    cases hs

theorem Tasks.destroyer (h : p.Tasks) (hw : p.destroyer.waits = true)
    (hs : p.thrpool_destroy = some q) : q.Tasks := by
  rw [thrpool_destroy] at hs
  cases hr : p.destroyer with
  | lockTask | grab | unlockTask t | drain t =>
    rw [hr] at hw
    cases hw
  | test wait | set | check | free =>
    rw [hr] at hs
    cases hs
    exact h
  | lock | woken =>
    rw [hr] at hs
    obtain ⟨r, hl, rfl⟩ := Option.map_eq_some_iff.1 hs
    obtain ⟨-, rfl⟩ := lockWorker_eq hl
    exact h
  | wait | unlock =>
    rw [hr] at hs
    cases hs
    rw [unlockWorker]
    split_ifs <;> exact h
  | out | signal | asleep | ret =>
    rw [hr] at hs
    cases hs

theorem Tasks.wake (h : p.Tasks) (hi : p.workers i = .asleep) : (p.setWorker i .woken).Tasks :=
  h.move hi rfl (fun _ _ h => h) (by simp) (by simp)

theorem Tasks.signaled {th : Thread} (h : p.Tasks) (hs : p.signaled th = some q) : q.Tasks := by
  cases th with
  | worker i =>
    rw [Pool.signaled] at hs
    split at hs
    case h_2 => cases hs
    case h_1 t hi =>
      cases hs
      exact h.move hi rfl (fun _ _ h => h) (by simp) (by simp)
  | adder k =>
    rw [Pool.signaled] at hs
    split at hs
    case h_2 => cases hs
    case h_1 t hk =>
      cases hs
      exact h.setAdder (hk ▸ rfl) (hk ▸ rfl) (by simp)
  | destroyer =>
    rw [Pool.signaled] at hs
    split_ifs at hs
    cases hs
    exact h
  | waiter k => cases hs

theorem Tasks.spurious {th : Thread} (h : p.Tasks) (hs : p.spurious th = some q) : q.Tasks := by
  cases th with
  | worker i =>
    rw [Pool.spurious] at hs
    split_ifs at hs with hi
    cases hs
    exact h.wake hi
  | waiter k | destroyer =>
    rw [Pool.spurious] at hs
    split_ifs at hs
    cases hs
    exact h
  | adder k => cases hs

theorem Tasks.act {a : Act} (h : p.Tasks) (hw : p.destroyer.waits = true)
    (hs : p.act a = some q) : q.Tasks := by
  cases a with
  | worker i => exact h.worker hs
  | adder k => exact h.adder hs
  | waiter k => exact h.waiter hs
  | destroyer => exact h.destroyer hw hs
  | spurious th => exact h.spurious hs
  | signal th w =>
    obtain ⟨r, hr, hs⟩ := Option.bind_eq_some_iff.1 hs
    have h := h.signaled hr
    rcases signalTask_eq hs with ⟨i, hi, rfl⟩ | ⟨rfl, -⟩
    · exact h.wake hi
    · exact h
  | ret i again =>
    rw [Pool.act] at hs
    split at hs
    case h_2 => cases hs
    case h_1 t k hi =>
      cases hs
      obtain ⟨ts, place, h⟩ := h
      exact ⟨ts, place, h.ret hi⟩
  | add k =>
    simp only [Pool.act, Option.ite_none_right_eq_some] at hs
    obtain ⟨hk, hs⟩ := hs
    cases hs
    exact h.setAdder (hk ▸ rfl) (hk ▸ rfl) (by simp)
  | malloc k t =>
    simp only [Pool.act, Option.ite_none_right_eq_some] at hs
    obtain ⟨⟨hk, ht⟩, hs⟩ := hs
    cases hs
    obtain ⟨ts, place, h⟩ := h
    exact ⟨ts, _, h.malloc hk ht⟩
  | wait k | destroy wait =>
    simp only [Pool.act, Option.ite_none_right_eq_some] at hs
    obtain ⟨-, hs⟩ := hs
    cases hs
    exact h

theorem Tasks.step {a : Act} (h : p.Tasks) (hw : p.destroyer.waits = true)
    (hs : p.step a = some q) :
    q.Tasks := by
  rcases step_cases hs with rfl | hs
  · exact h
  · exact h.act hw hs

theorem Tasks.create (workers : Nat) : (create workers).Tasks := by
  have hlock (i : Nat) : (Pool.create workers).workers i = .lock ∨
      (Pool.create workers).workers i = .done := by
    rw [Pool.create]
    dsimp only
    split_ifs
    · exact .inl rfl
    · exact .inr rfl
  have hnone {α : Type} {a : α} (h : (none : Option α) = some a) : False := by cases h
  refine ⟨[], fun _ => none,
    ⟨.nil, fun _ h => (hnone h).elim, .nil, fun _ => ⟨by simp, by simp⟩,
      fun _ => ⟨fun _ => rfl, fun _ => rfl⟩⟩,
    ⟨?_, fun _ _ => ⟨fun h => (hnone h).elim, fun h => (hnone h).elim⟩⟩,
    ⟨fun _ _ _ h => (hnone h).elim, fun _ _ => ⟨rfl, fun _ => hnone⟩,
      fun _ _ _ h => (hnone h).elim, ?_, ?_⟩,
    ?_, ?_⟩
  all_goals grind [Pool.create, WorkerPc.task, AddPc.entered]

/-- The destroyer has returned, so every task that was added is finished. -/
theorem Tasks.finished (h : p.Tasks) (hst : p.Staffed) (hd : p.destroyer = .ret) {k : Nat}
    (hk : p.adders k = .ret 0) : Finished k (runs p.log k) := by
  obtain ⟨ts, place, h⟩ := h
  have hleft (i : Nat) : (p.workers i).leaving = true :=
    WorkerPc.leaving_of_uncounted (hst.late (hd ▸ rfl) i)
  have hempty : p.task_front = none := by
    by_contra hf
    obtain ⟨i, hi⟩ := hst.staffed hf
    cases hi.symm.trans (hleft i)
  rcases h.logged.kept k (hk ▸ rfl) with hfin | ⟨t, ht⟩
  · exact hfin
  · exfalso
    cases hpl : place t with
    | none =>
      have hnone := (h.stored.live t).1 hpl
      rw [nexts, Option.map_eq_none_iff] at hnone
      rw [fns, hnone] at ht
      cases ht
    | some pl =>
      cases pl with
      | queued =>
        have hlinked := h.stored.linked
        rw [hempty] at hlinked
        have hmem := (h.stored.queued t).2 hpl
        rw [hlinked.front_none] at hmem
        cases hmem
      | worker i =>
        have htask := (h.held.worker i t).2 hpl
        rw [WorkerPc.task_of_leaving (hleft i)] at htask
        cases htask
      | adder j =>
        have htask := (h.held.adder j t).2 hpl
        rw [AddPc.task_of_idle (hst.closed (by simp [hd]) j)] at htask
        cases htask

end Pool

theorem drained {workers : Nat} (hw : 0 < workers) {p : Pool}
    (h : (machine workers).ReachIf Pool.Served p) (hd : p.destroyer = .ret) {k : Nat}
    (hk : p.adders k = .ret 0) : Finished k (runs p.log k) := by
  have hinv : p.Staffed ∧ p.Tasks := by
    refine h.invariant (I := fun p => p.Staffed ∧ p.Tasks) ?_ ?_
    · rintro _ rfl
      exact ⟨.create hw, .create workers⟩
    · intro _ _ _ hp hok hs
      exact ⟨hp.1.step hok hs, hp.2.step hp.1.waits hs⟩
  exact hinv.2.finished hinv.1 hd hk

def adding : List Act :=
  [.add 0, .adder 0, .malloc 0 7, .adder 0, .adder 0, .adder 0, .signal (.adder 0) none]

/-- The only worker runs the task twice and leaves. -/
def draining : List Act :=
  [.worker 0, .worker 0, .worker 0, .worker 0, .worker 0, .ret 0 true, .worker 0, .worker 0,
    .worker 0, .worker 0, .signal (.worker 0) none, .worker 0, .worker 0, .worker 0, .worker 0,
    .worker 0, .ret 0 false, .worker 0, .destroyer, .destroyer, .worker 0, .worker 0, .worker 0,
    .worker 0, .worker 0, .worker 0, .worker 0, .worker 0, .worker 0, .worker 0, .destroyer,
    .destroyer, .destroyer, .destroyer]

def Pool.Plain (p : Pool) : Act → Prop
  | .add _ => p.destroyer = .out
  | .destroy _ => False
  | _ => True

instance (p : Pool) (a : Act) : Decidable (p.Plain a) := by
  unfold Pool.Plain
  split <;> infer_instance

theorem Pool.Plain.served {p : Pool} {a : Act} (h : p.Plain a) : p.Served a := by
  cases a with
  | add k => exact h
  | destroy wait => cases h
  | _ => trivial

theorem drained_twice : ∃ p, (machine 1).ReachIf Pool.Served p ∧ p.destroyer = .ret ∧
    p.adders 0 = .ret 0 ∧ Finished 0 (runs p.log 0) := by
  have hidle (k : Nat) : ((machine 1).execIf Pool.Plain (.create 1) adding).map
      (fun p => (p.adders k).active) = some false := by
    cases k <;> rfl
  have hrest : ((machine 1).execIf Pool.Plain (.create 1) adding).bind (fun p =>
      ((machine 1).step p (.destroy true)).bind fun p =>
        ((machine 1).execIf Pool.Plain p draining).map fun p => (p.destroyer, p.adders 0)) =
      some (.ret, .ret 0) := by
    decide +kernel
  obtain ⟨p, hp, hrest⟩ := Option.bind_eq_some_iff.1 hrest
  obtain ⟨q, hq, hrest⟩ := Option.bind_eq_some_iff.1 hrest
  obtain ⟨r, hr, hfinal⟩ := Option.map_eq_some_iff.1 hrest
  rw [hp] at hidle
  obtain ⟨hd, hk⟩ := Prod.mk.inj hfinal
  have hdestroy : p.Served (.destroy true) := ⟨rfl, fun k => Option.some.inj (hidle k)⟩
  have hadd := (Machine.RunIf.of_execIf hp).mono fun _ _ h => h.served
  have hdrain := (Machine.RunIf.of_execIf hr).mono fun _ _ h => h.served
  have hreach : (machine 1).ReachIf Pool.Served r :=
    ⟨_, _, rfl, hadd.append (.cons hdestroy hq hdrain)⟩
  exact ⟨r, hreach, hd, hk, drained (by decide) hreach hd hk⟩

end Misc.Thrpool
