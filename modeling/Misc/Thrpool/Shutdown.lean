import Mathlib.Tactic.ByContra
import Misc.Thrpool.Pool

namespace Misc.Thrpool
open Misc.Lib
set_option autoImplicit true

/-- The worker is awake, still counted and not on its way from the test of `destroy` to its
wait. -/
def WorkerPc.ahead : WorkerPc → Bool
  | .wait | .asleep | .unlockWorker | .signalWorker | .done => false
  | _ => true

/-- The worker is awake and not on its way to its wait. -/
def WorkerPc.live : WorkerPc → Bool
  | .wait | .asleep | .done => false
  | _ => true

theorem WorkerPc.live_of_ahead {pc : WorkerPc} (h : pc.ahead = true) : pc.live = true := by
  cases pc <;> first | rfl | cases h

def DestroyPc.locked : DestroyPc → Bool
  | .check | .signal | .wait | .unlock => true
  | _ => false

def DestroyPc.past : DestroyPc → Bool
  | .lock | .check | .signal | .wait | .asleep | .woken | .unlock | .free => true
  | _ => false

/-- While the destroyer goes to sleep there is a worker that will wake it. -/
structure Awake (n : Nat) (worker_m : Option Thread) (destroy : Bool) (r : DestroyPc)
    (ws : Nat → WorkerPc) : Prop where
  counting : ∀ i, ws i = .count ∨ ws i = .unlockWorker → worker_m = some (.worker i)
  locked : r.locked = true → worker_m = some .destroyer
  past : r.past = true → destroy = true
  absent : ∀ i, n ≤ i → ws i = .done
  waiting : r = .wait → ∃ i, (ws i).ahead = true
  asleep : r = .asleep → ∃ i, (ws i).live = true

section
variable {n : Nat} {worker_m : Option Thread} {destroy : Bool} {r r' : DestroyPc}
  {ws : Nat → WorkerPc} {i : Nat} {pc old : WorkerPc}

theorem Awake.set (h : Awake n worker_m destroy r ws) (hi : ws i = old) (hold : old ≠ .done)
    (hcount : pc = .count ∨ pc = .unlockWorker → worker_m = some (.worker i))
    (hahead : r = .wait → old.ahead = true → pc.ahead = true)
    (hlive : r = .asleep → old.live = true → pc.live = true) :
    Awake n worker_m destroy r (Function.update ws i pc) := by
  subst hi
  obtain ⟨counting, locked, past, absent, waiting, asleep⟩ := h
  constructor
  case waiting =>
    intro hr
    exact exists_update (P := (WorkerPc.ahead · = true)) (waiting hr) (hahead hr)
  case asleep =>
    intro hr
    exact exists_update (P := (WorkerPc.live · = true)) (asleep hr) (hlive hr)
  all_goals grind

theorem Awake.go (h : Awake n worker_m destroy r ws) (hi : ws i = old) (hold : old ≠ .done)
    (hpc : pc.ahead = true) (hcount : pc ≠ .count) :
    Awake n worker_m destroy r (Function.update ws i pc) := by
  apply h.set hi hold
  · rintro (rfl | rfl)
    · exact absurd rfl hcount
    · cases hpc
  · intro _ _
    exact hpc
  · intro _ _
    exact WorkerPc.live_of_ahead hpc

/-- Once `destroy` is set, its test does not send a worker to its wait. -/
theorem Awake.test (h : Awake n worker_m destroy r ws) (hi : ws i = .test) :
    Awake n worker_m destroy r (Function.update ws i (if destroy then .take else .wait)) := by
  cases destroy with
  | true => exact h.go hi nofun rfl nofun
  | false =>
    have hpast := h.past
    refine h.set hi nofun nofun ?_ ?_
    · rintro rfl
      cases hpast rfl
    · rintro rfl
      cases hpast rfl

theorem Awake.lock (h : Awake n none destroy r ws) (hi : ws i = .lockWorker) :
    Awake n (some (.worker i)) destroy r (Function.update ws i .count) := by
  obtain ⟨counting, locked, past, absent, waiting, asleep⟩ := h
  constructor
  case waiting =>
    intro hr
    exact exists_update (P := (WorkerPc.ahead · = true)) (waiting hr) fun _ => rfl
  case asleep =>
    intro hr
    exact exists_update (P := (WorkerPc.live · = true)) (asleep hr) fun _ => rfl
  all_goals grind

theorem Awake.count (h : Awake n worker_m destroy r ws) (hi : ws i = .count) :
    Awake n worker_m destroy r (Function.update ws i .unlockWorker) := by
  have hm := h.counting i (.inl hi)
  have hlocked := h.locked
  apply h.set hi nofun fun _ => hm
  · rintro rfl
    cases hm.symm.trans (hlocked rfl)
  · intro _ _
    exact rfl

theorem Awake.unlock (h : Awake n worker_m destroy r ws) (hi : ws i = .unlockWorker) :
    Awake n none destroy r (Function.update ws i .signalWorker) := by
  have hm := h.counting i (.inr hi)
  obtain ⟨counting, locked, past, absent, waiting, asleep⟩ := h
  constructor
  case waiting =>
    intro hr
    apply exists_update (P := (WorkerPc.ahead · = true)) (waiting hr)
    rw [hi]
    nofun
  case asleep =>
    intro hr
    exact exists_update (P := (WorkerPc.live · = true)) (asleep hr) fun _ => rfl
  all_goals grind

theorem Awake.signal (h : Awake n worker_m destroy r ws) (hi : ws i = .signalWorker) :
    Awake n worker_m destroy (if r = .asleep then .woken
      else r) (Function.update ws i .done) := by
  split_ifs with hr
  · subst hr
    obtain ⟨counting, locked, past, absent, waiting, asleep⟩ := h
    refine ⟨?_, nofun, fun _ => past rfl, ?_, nofun, nofun⟩
    all_goals grind
  · exact h.set hi nofun nofun nofun fun hr' => absurd hr' hr

theorem Awake.destroyer (h : Awake n worker_m destroy r ws)
    (hl : r'.locked = true → worker_m = some .destroyer) (hp : r'.past = true → destroy = true)
    (hw : r' ≠ .wait) (ha : r' ≠ .asleep) : Awake n worker_m destroy r' ws :=
  ⟨h.counting, hl, hp, h.absent, fun h => absurd h hw, fun h => absurd h ha⟩

theorem Awake.lock_destroyer (h : Awake n none destroy r ws) (hp : r.past = true) :
    Awake n (some .destroyer) destroy .check ws := by
  refine ⟨?_, fun _ => rfl, fun _ => h.past hp, h.absent, nofun, nofun⟩
  intro i hi
  cases h.counting i hi

theorem Awake.unlock_destroyer (h : Awake n worker_m destroy r ws) (hl : r.locked = true)
    (hp : r'.past = true → destroy = true) (hl' : r'.locked = false)
    (ha : r' = .asleep → ∃ i, (ws i).live = true) : Awake n none destroy r' ws := by
  have hm := h.locked hl
  refine ⟨?_, fun hl => absurd (hl'.symm.trans hl) nofun, hp, h.absent, ?_, ha⟩
  · intro i hi
    cases hm.symm.trans (h.counting i hi)
  · rintro rfl
    cases hl'

end

namespace Pool

/-- The destroyer waits on `worker_c`, and every worker waits on `task_c` or has ended. -/
structure Hung (p : Pool) : Prop where
  destroyer : p.destroyer = .asleep
  workers : ∀ i < p.min_workers, p.workers i = .asleep ∨ p.workers i = .done

/-- No worker waits on `task_c`, and those that are still counted are about to: they have found
`destroy` unset. -/
def Missed (p : Pool) : Prop :=
  ∀ i < p.min_workers, p.workers i ≠ .asleep ∧ (p.workers i).ahead = false

instance (p : Pool) : Decidable p.Missed :=
  inferInstanceAs (Decidable (∀ i < p.min_workers, _))

/-- The signal of `thrpool_destroy` on `task_c` is not missed. -/
def Heard (p : Pool) : Act → Prop
  | .signal .destroyer _ => ¬ p.Missed
  | _ => True

instance (p : Pool) (a : Act) : Decidable (p.Heard a) := by
  unfold Heard
  split <;> infer_instance

def Shutdown (p : Pool) : Prop :=
  Awake p.min_workers p.worker_m p.destroy p.destroyer p.workers

variable {p q : Pool} {i : Nat} {pc old : WorkerPc}

theorem Shutdown.go (h : p.Shutdown) (hi : p.workers i = old) (hold : old ≠ .done)
    (hpc : pc.ahead = true) (hcount : pc ≠ .count) : (p.setWorker i pc).Shutdown :=
  Awake.go h hi hold hpc hcount

theorem Shutdown.unlockTask {th : Thread} {go : Pool → Pool} (h : p.Shutdown)
    (hgo : (go { p with task_m := none }).Shutdown) : (p.unlockTask th go).Shutdown := by
  rw [Pool.unlockTask]
  split_ifs
  · exact hgo
  · exact h

theorem Shutdown.setNext (h : p.Shutdown) (t : Ptr) (next : Option Ptr) :
    (p.setNext t next).Shutdown := by
  obtain ⟨heap, faulted, he⟩ := p.setNext_eq t next
  rw [he]
  exact h

theorem enq_eq {th : Thread} {t : Ptr} {pc : EnqPc} {r : Pool × EnqPc}
    (h : p._task_enq th t pc = some r) : ∃ task_m heap task_front task_rear faulted,
      r.1 = { p with task_m, heap, task_front, task_rear, faulted } := by
  cases pc with
  | lock =>
    obtain ⟨q, hq, rfl⟩ := Option.map_eq_some_iff.1 h
    obtain ⟨-, rfl⟩ := lockTask_eq hq
    exact ⟨_, _, _, _, _, rfl⟩
  | link =>
    cases h
    obtain ⟨heap, front, faulted, he⟩ := p.link_eq t
    dsimp only
    rw [he]
    exact ⟨_, _, _, _, _, rfl⟩
  | unlock =>
    cases h
    dsimp only
    rw [Pool.unlockTask]
    split_ifs <;> exact ⟨_, _, _, _, _, rfl⟩
  | signal => cases h

theorem Shutdown.worker (h : p.Shutdown) (hs : p._worker i = some q) : q.Shutdown := by
  cases works hs with
  | lock hi | woken hi | clear hi | broadcast hi | free hi => exact h.go hi nofun rfl nofun
  | front hi | task0 hi => split_ifs <;> exact h.go hi nofun rfl nofun
  | test hi => exact Awake.test h hi
  | wait hi => exact h.unlockTask (Awake.set h hi nofun nofun nofun nofun)
  | leave hi | unlock hi => exact h.unlockTask (h.go hi nofun rfl nofun)
  | take hi =>
    rw [take]
    split
    · exact h.go hi nofun rfl nofun
    · split
      · exact h.go hi nofun rfl nofun
      · exact h
  | call hi =>
    rw [call]
    split
    · exact h.go hi nofun rfl nofun
    · exact h
  | @again t hi =>
    have h := h.setNext t none
    obtain ⟨heap, faulted, he⟩ := p.setNext_eq t none
    rw [he] at h ⊢
    exact h.go hi nofun rfl nofun
  | enq hi hr =>
    obtain ⟨m, heap, front, rear, faulted, he⟩ := enq_eq hr
    rw [he]
    exact h.go hi nofun rfl nofun
  | lockWorker hi hm =>
    rw [Shutdown, hm] at h
    exact h.lock hi
  | count hi => exact Awake.count h hi
  | unlockWorker hi =>
    rw [unlockWorker]
    split_ifs
    · exact Awake.unlock h hi
    · exact h
  | signalWorker hi =>
    have h := Awake.signal h hi
    rw [signalWorker]
    split_ifs with hd
    · rw [if_pos hd] at h
      exact h
    · rw [if_neg hd] at h
      exact h

theorem Shutdown.destroyer (h : p.Shutdown) (hs : p.thrpool_destroy = some q) : q.Shutdown := by
  rw [thrpool_destroy] at hs
  have hpast : p.destroyer.past = true → _ := h.past
  have hlocked : p.destroyer.locked = true → _ := h.locked
  cases hr : p.destroyer with
  | test wait =>
    rw [hr] at hs
    cases hs
    split_ifs <;> exact Awake.destroyer h nofun nofun nofun nofun
  | lockTask =>
    rw [hr] at hs
    obtain ⟨r, hl, rfl⟩ := Option.map_eq_some_iff.1 hs
    obtain ⟨-, rfl⟩ := lockTask_eq hl
    exact Awake.destroyer h nofun nofun nofun nofun
  | grab =>
    rw [hr] at hs
    cases hs
    exact Awake.destroyer h nofun nofun nofun nofun
  | unlockTask t =>
    rw [hr] at hs
    cases hs
    exact h.unlockTask (Awake.destroyer h nofun nofun nofun nofun)
  | drain t =>
    rw [hr] at hs
    cases t with
    | none =>
      cases hs
      exact Awake.destroyer h nofun nofun nofun nofun
    | some t =>
      cases hs
      rw [drain]
      split
      · exact Awake.destroyer h nofun nofun nofun nofun
      · exact h
  | set =>
    rw [hr] at hs
    cases hs
    exact ⟨h.counting, nofun, fun _ => rfl, h.absent, nofun, nofun⟩
  | lock | woken =>
    rw [hr] at hs
    obtain ⟨r, hl, rfl⟩ := Option.map_eq_some_iff.1 hs
    obtain ⟨hm, rfl⟩ := lockWorker_eq hl
    rw [Shutdown, hm] at h
    exact h.lock_destroyer (by rw [hr]; rfl)
  | check =>
    rw [hr] at hs hpast hlocked
    cases hs
    split_ifs <;> exact Awake.destroyer h hlocked hpast nofun nofun
  | wait =>
    rw [hr] at hs hpast
    cases hs
    obtain ⟨i, hi⟩ := h.waiting hr
    rw [unlockWorker]
    split_ifs
    · exact h.unlock_destroyer (by rw [hr]; rfl) hpast rfl fun _ =>
        ⟨i, WorkerPc.live_of_ahead hi⟩
    · exact h
  | unlock =>
    rw [hr] at hs hpast
    cases hs
    rw [unlockWorker]
    split_ifs
    · exact h.unlock_destroyer (by rw [hr]; rfl) hpast rfl nofun
    · exact h
  | free =>
    rw [hr] at hs
    cases hs
    exact Awake.destroyer h nofun nofun nofun nofun
  | out | signal | asleep | ret =>
    rw [hr] at hs
    cases hs

theorem Shutdown.wake (h : p.Shutdown) (hi : p.workers i = .asleep) :
    (p.setWorker i .woken).Shutdown :=
  h.go hi nofun rfl nofun

theorem Shutdown.signal {w : Option Nat} (h : p.Shutdown) (hs : p.signalTask w = some q) :
    q.Shutdown := by
  rcases signalTask_eq hs with ⟨i, hi, rfl⟩ | ⟨rfl, -⟩
  · exact h.wake hi
  · exact h

/-- The signal of the destroyer reaches a worker that does not go to sleep again, or there is one
already. -/
theorem Shutdown.heard {w : Option Nat} (h : p.Shutdown) (hr : p.destroyer = .signal)
    (hheard : ¬ p.Missed) (hs : ({ p with destroyer := .wait }).signalTask w = some q) :
    q.Shutdown := by
  have hm := h.locked (by rw [hr]; rfl)
  have hd := h.past (by rw [hr]; rfl)
  obtain ⟨counting, locked, past, absent, waiting, asleep⟩ := h
  rcases signalTask_eq hs with ⟨i, hi, rfl⟩ | ⟨rfl, hnone⟩
  · refine ⟨?_, fun _ => hm, fun _ => hd, ?_, fun _ => ⟨i, ?_⟩, nofun⟩
    all_goals
      dsimp only [setWorker] at hi ⊢
      grind [WorkerPc.ahead]
  · have hahead : ∃ i, (p.workers i).ahead = true := by
      by_contra hno
      apply hheard
      intro i hi
      refine ⟨hnone i hi, ?_⟩
      rw [← Bool.not_eq_true]
      intro h
      exact hno ⟨i, h⟩
    exact ⟨counting, fun _ => hm, fun _ => hd, absent, fun _ => hahead, nofun⟩

theorem Shutdown.adder {k : Nat} (h : p.Shutdown) (hs : p.thrpool_add_task k = some q) :
    q.Shutdown := by
  rw [thrpool_add_task] at hs
  split at hs
  · cases hs
    exact h
  · obtain ⟨r, hr, rfl⟩ := Option.map_eq_some_iff.1 hs
    obtain ⟨m, heap, front, rear, faulted, he⟩ := enq_eq hr
    rw [he]
    exact h
  · cases hs

theorem Shutdown.waiter {k : Nat} (h : p.Shutdown) (hs : p.thrpool_wait k = some q) :
    q.Shutdown := by
  rw [thrpool_wait] at hs
  cases hk : p.waiters k with
  | lock | woken =>
    rw [hk] at hs
    obtain ⟨r, hr, rfl⟩ := Option.map_eq_some_iff.1 hs
    obtain ⟨-, rfl⟩ := lockTask_eq hr
    exact h
  | wait | unlock =>
    rw [hk] at hs
    cases hs
    exact h.unlockTask h
  | test | front | set =>
    rw [hk] at hs
    cases hs
    exact h
  | out | asleep | ret =>
    rw [hk] at hs
    cases hs

theorem Shutdown.spurious {th : Thread} (h : p.Shutdown) (hs : p.spurious th = some q) :
    q.Shutdown := by
  cases th with
  | worker i =>
    rw [Pool.spurious] at hs
    split_ifs at hs with hi
    cases hs
    exact h.wake hi
  | waiter k =>
    rw [Pool.spurious] at hs
    split_ifs at hs
    cases hs
    exact h
  | destroyer =>
    rw [Pool.spurious] at hs
    split_ifs at hs with hr
    cases hs
    exact Awake.destroyer h nofun (fun _ => h.past (by rw [hr]; rfl)) nofun nofun
  | adder k => cases hs

theorem Shutdown.act {a : Act} (h : p.Shutdown) (hheard : p.Heard a) (hs : p.act a = some q) :
    q.Shutdown := by
  cases a with
  | worker i => exact h.worker hs
  | adder k => exact h.adder hs
  | waiter k => exact h.waiter hs
  | destroyer => exact h.destroyer hs
  | spurious th => exact h.spurious hs
  | ret i again =>
    rw [Pool.act] at hs
    split at hs
    case h_2 => cases hs
    case h_1 t k hi =>
      cases hs
      split_ifs <;> exact h.go hi nofun rfl nofun
  | add k | wait k | malloc k t =>
    simp only [Pool.act, Option.ite_none_right_eq_some] at hs
    obtain ⟨-, hs⟩ := hs
    cases hs
    exact h
  | destroy wait =>
    simp only [Pool.act, Option.ite_none_right_eq_some] at hs
    obtain ⟨-, hs⟩ := hs
    cases hs
    exact Awake.destroyer h nofun nofun nofun nofun
  | signal th w =>
    obtain ⟨r, hr, hs⟩ := Option.bind_eq_some_iff.1 hs
    cases th with
    | worker i =>
      rw [signaled] at hr
      split at hr
      case h_2 => cases hr
      case h_1 t hi =>
        cases hr
        have h : (p.setWorker i .lock).Shutdown := h.go hi nofun rfl nofun
        exact h.signal hs
    | adder k =>
      rw [signaled] at hr
      split at hr
      case h_2 => cases hr
      case h_1 =>
        cases hr
        have h : (p.setAdder k (.ret 0)).Shutdown := h
        exact h.signal hs
    | destroyer =>
      rw [signaled] at hr
      split_ifs at hr with hd
      cases hr
      exact h.heard hd hheard hs
    | waiter k => cases hr

theorem Shutdown.step {a : Act} (h : p.Shutdown) (hheard : p.Heard a) (hs : p.step a = some q) :
    q.Shutdown := by
  rcases step_cases hs with rfl | hs
  · exact h
  · exact h.act hheard hs

theorem Shutdown.create (workers : Nat) : (Pool.create workers).Shutdown := by
  refine ⟨?_, nofun, nofun, ?_, nofun, nofun⟩
  all_goals
    dsimp only [Pool.create]
    grind

theorem Shutdown.never_hung (h : p.Shutdown) : ¬ p.Hung := by
  intro hh
  obtain ⟨i, hi⟩ := h.asleep hh.destroyer
  rcases Nat.lt_or_ge i p.min_workers with hlt | hge
  · rcases hh.workers i hlt with hs | hs
    all_goals
      rw [hs] at hi
      cases hi
  · rw [h.absent i hge] at hi
    cases hi

end Pool

/-- A shutdown none of whose signals is missed does not hang. -/
theorem not_hung {workers : Nat} {p : Pool} (h : (machine workers).ReachIf Pool.Heard p) :
    ¬ p.Hung := by
  apply Pool.Shutdown.never_hung
  apply h.invariant
  · rintro _ rfl
    exact .create workers
  · intro _ _ _ hp hok hs
    exact hp.step hok hs

/-- The worker is asleep when the destroyer signals. -/
def heard : List Act :=
  [.worker 0, .worker 0, .worker 0, .worker 0, .worker 0, .destroy true, .destroyer, .destroyer,
    .destroyer, .destroyer, .signal .destroyer (some 0), .destroyer]

theorem not_hung_one :
    ∃ p, (machine 1).ReachIf Pool.Heard p ∧ p.destroyer = .asleep ∧ ¬ p.Hung := by
  have hrun : ((machine 1).execIf Pool.Heard (.create 1) heard).map (fun p => p.destroyer) =
      some .asleep := by
    decide +kernel
  obtain ⟨p, hp, hd⟩ := Option.map_eq_some_iff.1 hrun
  have hreach : (machine 1).ReachIf Pool.Heard p := ⟨_, _, rfl, .of_execIf hp⟩
  exact ⟨p, hreach, hd, not_hung hreach⟩

/-- The worker has found `destroy` unset and is not yet asleep when the destroyer signals. -/
def missed : List Act :=
  [.worker 0, .worker 0, .worker 0, .worker 0, .destroy true, .destroyer, .destroyer, .destroyer,
    .destroyer, .signal .destroyer none, .destroyer, .worker 0]

theorem hangs : ∃ p, (machine 1).Reach p ∧ p.Hung := by
  have hrun : ((machine 1).exec (.create 1) missed).map
      (fun p => (p.min_workers, p.destroyer, p.workers 0)) = some (1, .asleep, .asleep) := by
    decide +kernel
  obtain ⟨p, hp, hfinal⟩ := Option.map_eq_some_iff.1 hrun
  simp only [Prod.mk.injEq] at hfinal
  obtain ⟨hn, hd, hw⟩ := hfinal
  refine ⟨p, .of_exec rfl hp, hd, ?_⟩
  intro i hi
  rw [hn, Nat.lt_one_iff] at hi
  exact .inl (hi ▸ hw)

end Misc.Thrpool
