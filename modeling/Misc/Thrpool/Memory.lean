import Misc.Thrpool.Shutdown
import Misc.Thrpool.Waiting

namespace Misc.Thrpool
open Misc.Lib
set_option autoImplicit true

def WorkerPc.counting : WorkerPc → Bool
  | .count | .unlockWorker => true
  | _ => false

/-- The worker has only its last signal before it. -/
def WorkerPc.gone : WorkerPc → Bool
  | .signalWorker | .done => true
  | _ => false

def WaitPc.owns : WaitPc → Bool
  | .front | .set | .wait | .unlock => true
  | _ => false

def DestroyPc.grabs : DestroyPc → Bool
  | .grab | .unlockTask _ => true
  | _ => false

/-- The tasks that `thrpool_destroy` has taken from the queue and not yet freed. -/
def DestroyPc.rest : DestroyPc → Option Ptr
  | .unlockTask t | .drain t => t
  | _ => none

/-- A thread that stands where a mutex is held is its owner. -/
structure Locks (task_m worker_m : Option Thread) (ws : Nat → WorkerPc) (as : Nat → AddPc)
    (wts : Nat → WaitPc) (d : DestroyPc) : Prop where
  worker : ∀ i, (ws i).owns = true → task_m = some (.worker i)
  adder : ∀ k, (as k).owns = true → task_m = some (.adder k)
  waiter : ∀ k, (wts k).owns = true → task_m = some (.waiter k)
  destroyer : d.grabs = true → task_m = some .destroyer
  counting : ∀ i, (ws i).counting = true → worker_m = some (.worker i)
  checking : d.locked = true → worker_m = some .destroyer

section
variable {tm wm : Option Thread} {ws : Nat → WorkerPc} {as : Nat → AddPc} {wts : Nat → WaitPc}
  {d d' : DestroyPc} {i k : Nat} {pc : WorkerPc} {apc : AddPc} {wpc : WaitPc}

theorem Locks.setWorker (h : Locks tm wm ws as wts d)
    (howns : pc.owns = true → (ws i).owns = true)
    (hcount : pc.counting = true → (ws i).counting = true) :
    Locks tm wm (Function.update ws i pc) as wts d := by
  obtain ⟨worker, adder, waiter, destroyer, counting, checking⟩ := h
  constructor
  all_goals grind

theorem Locks.lockWorker (h : Locks none wm ws as wts d) (hcount : pc.counting = false) :
    Locks (some (.worker i)) wm (Function.update ws i pc) as wts d := by
  obtain ⟨worker, adder, waiter, destroyer, counting, checking⟩ := h
  constructor
  all_goals grind

theorem Locks.unlockWorker (h : Locks tm wm ws as wts d) (howns : (ws i).owns = true)
    (hpc : pc.owns = false) (hcount : pc.counting = false) :
    Locks none wm (Function.update ws i pc) as wts d := by
  obtain ⟨worker, adder, waiter, destroyer, counting, checking⟩ := h
  constructor
  all_goals grind

theorem Locks.beginCount (h : Locks tm none ws as wts d) (hpc : pc.owns = false) :
    Locks tm (some (.worker i)) (Function.update ws i pc) as wts d := by
  obtain ⟨worker, adder, waiter, destroyer, counting, checking⟩ := h
  constructor
  all_goals grind

theorem Locks.endCount (h : Locks tm wm ws as wts d) (hcount : (ws i).counting = true)
    (hpc : pc.owns = false) (hpc' : pc.counting = false) :
    Locks tm none (Function.update ws i pc) as wts d := by
  obtain ⟨worker, adder, waiter, destroyer, counting, checking⟩ := h
  constructor
  all_goals grind

theorem Locks.setAdder (h : Locks tm wm ws as wts d)
    (howns : apc.owns = true → (as k).owns = true) :
    Locks tm wm ws (Function.update as k apc) wts d := by
  obtain ⟨worker, adder, waiter, destroyer, counting, checking⟩ := h
  constructor
  all_goals grind

theorem Locks.lockAdder (h : Locks none wm ws as wts d) :
    Locks (some (.adder k)) wm ws (Function.update as k apc) wts d := by
  obtain ⟨worker, adder, waiter, destroyer, counting, checking⟩ := h
  constructor
  all_goals grind

theorem Locks.unlockAdder (h : Locks tm wm ws as wts d) (howns : (as k).owns = true)
    (hpc : apc.owns = false) : Locks none wm ws (Function.update as k apc) wts d := by
  obtain ⟨worker, adder, waiter, destroyer, counting, checking⟩ := h
  constructor
  all_goals grind

theorem Locks.setWaiter (h : Locks tm wm ws as wts d)
    (howns : wpc.owns = true → (wts k).owns = true) :
    Locks tm wm ws as (Function.update wts k wpc) d := by
  obtain ⟨worker, adder, waiter, destroyer, counting, checking⟩ := h
  constructor
  all_goals grind

theorem Locks.lockWaiter (h : Locks none wm ws as wts d) :
    Locks (some (.waiter k)) wm ws as (Function.update wts k wpc) d := by
  obtain ⟨worker, adder, waiter, destroyer, counting, checking⟩ := h
  constructor
  all_goals grind

theorem Locks.unlockWaiter (h : Locks tm wm ws as wts d) (howns : (wts k).owns = true)
    (hpc : wpc.owns = false) : Locks none wm ws as (Function.update wts k wpc) d := by
  obtain ⟨worker, adder, waiter, destroyer, counting, checking⟩ := h
  constructor
  all_goals grind

theorem Locks.broadcast (h : Locks tm wm ws as wts d) :
    Locks tm wm ws as (fun k => if wts k = .asleep then .woken else wts k) d := by
  refine { h with waiter := fun k hk => ?_ }
  split_ifs at hk
  · cases hk
  · exact h.waiter k hk

theorem Locks.setDestroyer (h : Locks tm wm ws as wts d)
    (hgrab : d'.grabs = true → d.grabs = true)
    (hlock : d'.locked = true → d.locked = true) : Locks tm wm ws as wts d' :=
  { h with
    destroyer := fun hd => h.destroyer (hgrab hd)
    checking := fun hd => h.checking (hlock hd) }

theorem Locks.lockDestroyer (h : Locks none wm ws as wts d) (hlock : d'.locked = false) :
    Locks (some .destroyer) wm ws as wts d' := by
  obtain ⟨worker, adder, waiter, destroyer, counting, checking⟩ := h
  constructor
  all_goals grind

theorem Locks.unlockDestroyer (h : Locks tm wm ws as wts d) (hgrab : d.grabs = true)
    (hpc : d'.grabs = false) (hlock : d'.locked = false) : Locks none wm ws as wts d' := by
  obtain ⟨worker, adder, waiter, destroyer, counting, checking⟩ := h
  constructor
  all_goals grind

theorem Locks.beginCheck (h : Locks tm none ws as wts d) (hgrab : d'.grabs = false) :
    Locks tm (some .destroyer) ws as wts d' := by
  obtain ⟨worker, adder, waiter, destroyer, counting, checking⟩ := h
  constructor
  all_goals grind

theorem Locks.endCheck (h : Locks tm wm ws as wts d) (hlock : d.locked = true)
    (hgrab : d'.grabs = false)
    (hpc : d'.locked = false) : Locks tm none ws as wts d' := by
  obtain ⟨worker, adder, waiter, destroyer, counting, checking⟩ := h
  constructor
  all_goals grind

end

/-- Where a task of the memory is. -/
inductive Spot
  | queue
  | drain
  | worker (i : Nat)
  | adder (k : Nat)
  deriving DecidableEq

/-- Each task of the memory is at one place: in the queue, among those that the destroyer frees,
or in the hand of a thread. A task that is about to be linked is the last of its list. -/
structure Sound (next : Ptr → Option (Option Ptr)) (front rear rest : Option Ptr)
    (ws : Nat → WorkerPc)
    (as : Nat → AddPc) (ts ds : List Ptr) (spot : Ptr → Option Spot) : Prop where
  queue : Linked next front ts
  drain : Linked next rest ds
  rear : ∀ t, ts.getLast? = some t → rear = some t
  queued : ∀ t, t ∈ ts ↔ spot t = some .queue
  drained : ∀ t, t ∈ ds ↔ spot t = some .drain
  live : ∀ t, spot t = none ↔ next t = none
  worker : ∀ i t, (ws i).task = some t ↔ spot t = some (.worker i)
  adder : ∀ k t, (as k).task = some t ↔ spot t = some (.adder k)
  ready : ∀ i t, ws i = .enq .lock t ∨ ws i = .enq .link t → next t = some none
  added : ∀ k t, as k = .enq .lock t ∨ as k = .enq .link t → next t = some none

section
variable {next : Ptr → Option (Option Ptr)} {front rear rest : Option Ptr} {ws : Nat → WorkerPc}
  {as : Nat → AddPc} {ts ds : List Ptr} {spot : Ptr → Option Spot} {i k : Nat}
  {pc : WorkerPc} {apc : AddPc}
  {t r : Ptr} {b : Option Ptr} {pl : Spot}

theorem Sound.setWorker (h : Sound next front rear rest ws as ts ds spot)
    (htask : pc.task = (ws i).task)
    (hready : ∀ t, pc = .enq .lock t ∨ pc = .enq .link t → ws i = .enq .lock t) :
    Sound next front rear rest (Function.update ws i pc) as ts ds spot := by
  obtain ⟨queue, drain, hrear, queued, drained, live, worker, adder, ready, added⟩ := h
  refine ⟨queue, drain, hrear, queued, drained, live, ?_, adder, ?_, added⟩
  all_goals grind

theorem Sound.setAdder (h : Sound next front rear rest ws as ts ds spot)
    (htask : apc.task = (as k).task)
    (hready : ∀ t, apc = .enq .lock t ∨ apc = .enq .link t → as k = .enq .lock t) :
    Sound next front rear rest ws (Function.update as k apc) ts ds spot := by
  obtain ⟨queue, drain, hrear, queued, drained, live, worker, adder, ready, added⟩ := h
  refine ⟨queue, drain, hrear, queued, drained, live, worker, ?_, ready, ?_⟩
  all_goals grind

theorem Sound.live_of (h : Sound next front rear rest ws as ts ds spot) (ht : spot t = some pl) :
    ∃ b, next t = some b := by
  cases hn : next t with
  | none => exact absurd (ht.symm.trans ((h.live t).2 hn)) (by simp)
  | some b => exact ⟨b, rfl⟩

theorem Sound.ready_spot (h : Sound next front rear rest ws as ts ds spot)
    (hi : ws i = .enq .lock t ∨ ws i = .enq .link t) : spot t = some (.worker i) := by
  apply (h.worker i t).1
  rcases hi with hi | hi <;> rw [hi] <;> rfl

theorem Sound.added_spot (h : Sound next front rear rest ws as ts ds spot)
    (hk : as k = .enq .lock t ∨ as k = .enq .link t) : spot t = some (.adder k) := by
  apply (h.adder k t).1
  rcases hk with hk | hk <;> rw [hk] <;> rfl

theorem Sound.take (h : Sound next (some t) rear rest ws as ts ds spot) (hi : (ws i).task = none)
    (hb : next t = some b) :
    ∃ ts', Sound next b rear rest (Function.update ws i (.unlock (some t))) as ts' ds
      (Function.update spot t (some (.worker i))) := by
  obtain ⟨queue, drain, hrear, queued, drained, live, worker, adder, ready, added⟩ := h
  obtain ⟨b', ts', rfl, hb', hl⟩ := queue.front_some
  have hnodup := queue.nodup
  obtain rfl : b' = b := Option.some.inj (hb'.symm.trans hb)
  refine ⟨ts', hl, drain, ?_, ?_, ?_, ?_, ?_, ?_, ?_, added⟩
  · intro r hr
    apply hrear
    rw [List.getLast?_cons, hr]
    rfl
  all_goals grind [WorkerPc.task]

theorem Sound.pushFirst_worker (h : Sound next none rear rest ws as ts ds spot)
    (hi : ws i = .enq .link t) :
    Sound next (some t) (some t) rest (Function.update ws i (.enq .unlock t)) as [t] ds
      (Function.update spot t (some .queue)) := by
  obtain ⟨queue, drain, hrear, queued, drained, live, worker, adder, ready, added⟩ := h
  have ht := ready i t (.inr hi)
  have hpl : spot t = some (.worker i) := (worker i t).1 (hi ▸ rfl)
  obtain rfl := queue.front_none
  refine ⟨.cons ht .nil, drain, ?_, ?_, ?_, ?_, ?_, ?_, ?_, ?_⟩
  all_goals grind [WorkerPc.task]

theorem Sound.push_worker (h : Sound next front rear rest ws as (ts ++ [r]) ds spot)
    (hi : ws i = .enq .link t) :
    Sound (Function.update next r (some (some t))) front (some t) rest
      (Function.update ws i (.enq .unlock t)) as (ts ++ [r, t]) ds
        (Function.update spot t (some .queue)) := by
  obtain ⟨queue, drain, hrear, queued, drained, live, worker, adder, ready, added⟩ := h
  have ht := ready i t (.inr hi)
  have hpl : spot t = some (.worker i) := (worker i t).1 (hi ▸ rfl)
  have hr : spot r = some .queue := (queued r).1 (by simp)
  have hnodup := queue.nodup
  refine ⟨queue.push ?_ ?_ ?_, drain.congr ?_, ?_, ?_, ?_, ?_, ?_, ?_, ?_, ?_⟩
  all_goals grind [WorkerPc.task, AddPc.task]

theorem Sound.pushFirst_adder (h : Sound next none rear rest ws as ts ds spot)
    (hk : as k = .enq .link t) :
    Sound next (some t) (some t) rest ws (Function.update as k (.enq .unlock t)) [t] ds
      (Function.update spot t (some .queue)) := by
  obtain ⟨queue, drain, hrear, queued, drained, live, worker, adder, ready, added⟩ := h
  have ht := added k t (.inr hk)
  have hpl : spot t = some (.adder k) := (adder k t).1 (hk ▸ rfl)
  obtain rfl := queue.front_none
  refine ⟨.cons ht .nil, drain, ?_, ?_, ?_, ?_, ?_, ?_, ?_, ?_⟩
  all_goals grind [AddPc.task]

theorem Sound.push_adder (h : Sound next front rear rest ws as (ts ++ [r]) ds spot)
    (hk : as k = .enq .link t) :
    Sound (Function.update next r (some (some t))) front (some t) rest ws
      (Function.update as k (.enq .unlock t)) (ts ++ [r, t]) ds
        (Function.update spot t (some .queue)) := by
  obtain ⟨queue, drain, hrear, queued, drained, live, worker, adder, ready, added⟩ := h
  have ht := added k t (.inr hk)
  have hpl : spot t = some (.adder k) := (adder k t).1 (hk ▸ rfl)
  have hr : spot r = some .queue := (queued r).1 (by simp)
  have hnodup := queue.nodup
  refine ⟨queue.push ?_ ?_ ?_, drain.congr ?_, ?_, ?_, ?_, ?_, ?_, ?_, ?_, ?_⟩
  all_goals grind [WorkerPc.task, AddPc.task]

theorem Sound.again (h : Sound next front rear rest ws as ts ds spot) (hi : ws i = .again t) :
    Sound (Function.update next t (some none)) front rear rest
      (Function.update ws i (.enq .lock t)) as ts ds spot := by
  obtain ⟨queue, drain, hrear, queued, drained, live, worker, adder, ready, added⟩ := h
  have hpl : spot t = some (.worker i) := (worker i t).1 (hi ▸ rfl)
  refine ⟨queue.congr ?_, drain.congr ?_, hrear, queued, drained, ?_, ?_, adder, ?_, ?_⟩
  all_goals grind [WorkerPc.task, AddPc.task]

theorem Sound.free (h : Sound next front rear rest ws as ts ds spot) (hi : ws i = .free t) :
    Sound (Function.update next t none) front rear rest (Function.update ws i .lock) as ts ds
      (Function.update spot t none) := by
  have hready (j t') := h.ready_spot (i := j) (t := t')
  have hadded (k t') := h.added_spot (k := k) (t := t')
  obtain ⟨queue, drain, hrear, queued, drained, live, worker, adder, ready, added⟩ := h
  have hpl : spot t = some (.worker i) := (worker i t).1 (hi ▸ rfl)
  refine ⟨queue.congr ?_, drain.congr ?_, hrear, ?_, ?_, ?_, ?_, ?_, ?_, ?_⟩
  all_goals grind [WorkerPc.task, AddPc.task]

theorem Sound.malloc (h : Sound next front rear rest ws as ts ds spot) (hk : as k = .malloc)
    (ht : next t = none) :
    Sound (Function.update next t (some none)) front rear rest ws
      (Function.update as k (.enq .lock t)) ts ds
      (Function.update spot t (some (.adder k))) := by
  obtain ⟨queue, drain, hrear, queued, drained, live, worker, adder, ready, added⟩ := h
  have hpl : spot t = none := (live t).2 ht
  refine ⟨queue.congr ?_, drain.congr ?_, hrear, ?_, ?_, ?_, ?_, ?_, ?_, ?_⟩
  all_goals grind [WorkerPc.task, AddPc.task]

theorem Sound.grab (h : Sound next front rear none ws as ts ds spot) :
    Sound next none rear front ws as [] ts
      fun t => if spot t = some .queue then some .drain else spot t := by
  obtain ⟨queue, drain, hrear, queued, drained, live, worker, adder, ready, added⟩ := h
  obtain rfl := drain.front_none
  refine ⟨.nil, queue, ?_, ?_, ?_, ?_, ?_, ?_, ready, added⟩
  all_goals grind

theorem Sound.drop (h : Sound next front rear (some t) ws as ts ds spot) (hb : next t = some b) :
    ∃ ds', Sound (Function.update next t none) front rear b ws as ts ds'
      (Function.update spot t none) := by
  obtain ⟨queue, drain, hrear, queued, drained, live, worker, adder, ready, added⟩ := h
  have hnodup := drain.nodup
  obtain ⟨b', ds', rfl, hb', hl⟩ := drain.front_some
  obtain rfl : b' = b := Option.some.inj (hb'.symm.trans hb)
  refine ⟨ds', queue.congr ?_, hl.congr ?_, hrear, ?_, ?_, ?_, ?_, ?_, ?_, ?_⟩
  all_goals grind [WorkerPc.task, AddPc.task]

end

/-- `running_workers` counts the workers that have not left, and none is left where the pool is
freed. -/
structure Counts (n : Nat) (running : Int) (ws : Nat → WorkerPc) (d : DestroyPc)
    (freed : Bool) : Prop where
  absent : ∀ i, n ≤ i → ws i = .done
  count : running = (List.range n).countP fun i => (ws i).counted
  left : d = .unlock ∨ d = .free ∨ freed = true → ∀ i, (ws i).gone = true
  freed : freed = true → d = .ret

section
variable {n : Nat} {running : Int} {ws : Nat → WorkerPc} {d d' : DestroyPc}
  {freed : Bool} {i : Nat}
  {pc : WorkerPc}

theorem Counts.setWorker (h : Counts n running ws d freed)
    (hcounted : pc.counted = (ws i).counted)
    (hdone : ws i ≠ .done) (hgone : (ws i).gone = true → pc.gone = true) :
    Counts n running (Function.update ws i pc) d freed := by
  obtain ⟨absent, count, left, hfreed⟩ := h
  refine ⟨?_, ?_, ?_, hfreed⟩
  · grind
  · rw [count]
    congr 2
    funext j
    by_cases hj : j = i
    · rw [hj, Function.update_self, hcounted]
    · rw [Function.update_of_ne hj]
  · grind

theorem Counts.leave (h : Counts n running ws d freed) (hi : ws i = .count) :
    Counts n (running - 1) (Function.update ws i .unlockWorker) d freed := by
  obtain ⟨absent, count, left, hfreed⟩ := h
  have hlt : i < n := Nat.lt_of_not_le fun hle => by
    rw [absent i hle] at hi
    cases hi
  refine ⟨?_, ?_, ?_, hfreed⟩
  · grind
  · have hone :
        (List.range n).countP (fun j => (Function.update ws i .unlockWorker j).counted) + 1 =
        _ :=
      Pool.staff_succ hlt (by rw [hi]; rfl) rfl
    omega
  · grind [WorkerPc.gone]

/-- Nobody is left when `running_workers` is down and no worker is counting itself out. -/
theorem Counts.gone (h : Counts n running ws d freed) (hzero : ¬ 0 < running)
    (hcount : ∀ i, (ws i).counting = false) (i : Nat) : (ws i).gone = true := by
  have hnone : (List.range n).countP (fun i => (ws i).counted) = 0 := by
    have hrun := h.count
    omega
  have hout : (ws i).counted = false := by
    rcases Nat.lt_or_ge i n with hlt | hle
    · exact Pool.staff_zero hnone hlt
    · rw [h.absent i hle]
      rfl
  have hidle := hcount i
  revert hout hidle
  cases ws i <;> simp [WorkerPc.counted, WorkerPc.counting, WorkerPc.gone]

theorem Counts.setDestroyer (h : Counts n running ws d false)
    (hlate : d' ≠ .unlock ∧ d' ≠ .free) : Counts n running ws d' false := by
  obtain ⟨absent, count, left, hfreed⟩ := h
  refine ⟨absent, count, ?_, ?_⟩
  all_goals grind

end

namespace Pool

/-- What holds as long as nobody uses the pool after it is freed. -/
structure Good (p : Pool) : Prop where
  locks : Locks p.task_m p.worker_m p.workers p.adders p.waiters p.destroyer
  sound :
    ∃ ts ds spot, Sound (nexts p.heap) p.task_front p.task_rear
    p.destroyer.rest p.workers p.adders ts ds spot
  counts : Counts p.min_workers p.running_workers p.workers p.destroyer p.freed
  fine : p.faulted = false

section
variable {p q : Pool} {i k : Nat} {old pc : WorkerPc} {t : Ptr} {task : Task}

theorem Good.move (h : p.Good) (hi : p.workers i = old)
    (howns : pc.owns = true → old.owns = true)
    (hcount : pc.counting = true → old.counting = true) (htask : pc.task = old.task)
    (hready : ∀ t, pc = .enq .lock t ∨ pc = .enq .link t → old = .enq .lock t)
    (hcounted : pc.counted = old.counted) (hgone : old.gone = false) :
    (p.setWorker i pc).Good := by
  subst hi
  obtain ⟨locks, ⟨ts, ds, spot, sound⟩, counts, fine⟩ := h
  refine ⟨locks.setWorker howns hcount, ⟨ts, ds, spot, sound.setWorker htask hready⟩,
    counts.setWorker hcounted ?_ ?_, fine⟩
  · intro hdone
    rw [hdone] at hgone
    cases hgone
  · rw [hgone]
    exact Bool.false_ne_true.elim

theorem Good.lock (h : p.Good) (hi : p.workers i = old) (hm : p.task_m = none)
    (hcount : pc.counting = false) (htask : pc.task = old.task)
    (hready : ∀ t, pc = .enq .lock t ∨ pc = .enq .link t → old = .enq .lock t)
    (hcounted : pc.counted = old.counted) (hgone : old.gone = false) :
    ({ p with task_m := some (.worker i) }.setWorker i pc).Good := by
  subst hi
  obtain ⟨locks, ⟨ts, ds, spot, sound⟩, counts, fine⟩ := h
  rw [hm] at locks
  refine ⟨locks.lockWorker hcount, ⟨ts, ds, spot, sound.setWorker htask hready⟩,
    counts.setWorker hcounted ?_ ?_, fine⟩
  · intro hdone
    rw [hdone] at hgone
    cases hgone
  · rw [hgone]
    exact Bool.false_ne_true.elim

theorem Good.unlock (h : p.Good) (hi : p.workers i = old) (howns : old.owns = true)
    (hpc : pc.owns = false)
    (hcount : pc.counting = false) (htask : pc.task = old.task)
    (hcounted : pc.counted = old.counted)
    (hready : ∀ t, pc ≠ .enq .lock t ∧ pc ≠ .enq .link t) (hgone : old.gone = false) :
    (p.unlockTask (.worker i) fun p => p.setWorker i pc).Good := by
  subst hi
  obtain ⟨locks, ⟨ts, ds, spot, sound⟩, counts, fine⟩ := h
  rw [unlockTask, if_pos (locks.worker i howns)]
  refine ⟨locks.unlockWorker howns hpc hcount,
    ⟨ts, ds, spot, sound.setWorker htask fun t ht => ?_⟩, counts.setWorker hcounted ?_ ?_, fine⟩
  · exact (ht.elim (hready t).1 (hready t).2).elim
  · intro hdone
    rw [hdone] at hgone
    cases hgone
  · rw [hgone]
    exact Bool.false_ne_true.elim

theorem Good.take (h : p.Good) (hi : p.workers i = .take) : (p.take i).Good := by
  rw [Pool.take]
  cases hf : p.task_front with
  | none => exact h.move hi (fun _ => rfl) (by simp [WorkerPc.counting]) rfl (by simp) rfl rfl
  | some t =>
    obtain ⟨locks, ⟨ts, ds, spot, sound⟩, counts, fine⟩ := h
    rw [hf] at sound
    obtain ⟨b, hb⟩ :=
      sound.live_of ((sound.queued t).1 (by cases sound.queue; exact List.mem_cons_self))
    obtain ⟨task, ht, rfl⟩ := Option.map_eq_some_iff.1 hb
    obtain ⟨ts', sound'⟩ := sound.take (i := i) (by rw [hi]; rfl) hb
    simp only [ht]
    refine ⟨locks.setWorker ?_ ?_, ⟨ts', ds, _, sound'⟩, counts.setWorker ?_ ?_ ?_, fine⟩
    all_goals rw [hi]; simp [WorkerPc.owns, WorkerPc.counting, WorkerPc.counted, WorkerPc.gone]

theorem Good.heap_of_task (h : p.Good) (ht : (p.workers i).task = some t) :
    ∃ task, p.heap t = some task := by
  obtain ⟨-, ⟨ts, ds, spot, sound⟩, -, -⟩ := h
  obtain ⟨b, hb⟩ := sound.live_of ((sound.worker i t).1 ht)
  obtain ⟨task, ht, -⟩ := Option.map_eq_some_iff.1 hb
  exact ⟨task, ht⟩

theorem Sound.exists_rear {ts ds : List Ptr} {spot : Ptr → Option Spot} {f : Ptr}
    {rear rest : Option Ptr}
    (h : Sound (nexts p.heap) (some f) rear rest p.workers p.adders ts ds spot) :
    ∃ ts' r task, ts = ts' ++ [r] ∧ rear = some r ∧ p.heap r = some task := by
  have hne : ts ≠ [] := by
    rintro rfl
    cases h.queue
  obtain ⟨ts', r, rfl⟩ := (List.eq_nil_or_concat' ts).resolve_left hne
  obtain ⟨b, hb⟩ := h.live_of ((h.queued r).1 (by simp))
  obtain ⟨task, ht, -⟩ := Option.map_eq_some_iff.1 hb
  exact ⟨ts', r, task, rfl, h.rear r (by simp), ht⟩

theorem link_cases {ts ds : List Ptr} {spot : Ptr → Option Spot} {rest : Option Ptr}
    (h : Sound (nexts p.heap) p.task_front p.task_rear rest p.workers p.adders ts ds spot) :
    p.task_front = none ∧ p.link t = { p with task_front := some t, task_rear := some t } ∨
      ∃ ts' r heap, ts = ts' ++ [r] ∧
        nexts heap = Function.update (nexts p.heap) r (some (some t)) ∧
        p.link t = { p with heap, task_rear := some t } := by
  rw [link]
  cases hf : p.task_front with
  | none => exact .inl ⟨rfl, rfl⟩
  | some f =>
    rw [hf] at h
    obtain ⟨ts', r, task, hts, hr, ht⟩ := Sound.exists_rear h
    refine .inr ⟨ts', r, Function.update p.heap r (some { task with next := some t }),
      hts, nexts_update, ?_⟩
    simp only [linkRear, hr, setNext, ht, setTask]
    rw [hf]

theorem Good.link_worker (h : p.Good) (hi : p.workers i = .enq .link t) :
    ((p.link t).setWorker i (.enq .unlock t)).Good := by
  obtain ⟨locks, ⟨ts, ds, spot, sound⟩, counts, fine⟩ := h
  have hlocks :
      Locks p.task_m p.worker_m (Function.update p.workers i (.enq .unlock t)) p.adders p.waiters
      p.destroyer :=
        locks.setWorker (by rw [hi]; exact fun _ => rfl) (by simp [WorkerPc.counting])
  have hcounts :
      Counts p.min_workers p.running_workers (Function.update p.workers i (.enq .unlock t))
      p.destroyer p.freed :=
    counts.setWorker (by rw [hi]; rfl) (by rw [hi]; simp) (by rw [hi]; simp [WorkerPc.gone])
  obtain ⟨hf, heq⟩ | ⟨ts', r, heap, rfl, hheap, heq⟩ := p.link_cases (t := t) sound
  · rw [hf] at sound
    rw [heq]
    exact ⟨hlocks, ⟨_, _, _, sound.pushFirst_worker hi⟩, hcounts, fine⟩
  · have hpush := sound.push_worker hi
    rw [← hheap] at hpush
    rw [heq]
    exact ⟨hlocks, ⟨_, _, _, hpush⟩, hcounts, fine⟩

theorem Good.counts_destroyer {d : DestroyPc} (h : p.Good) (hret : p.destroyer ≠ .ret)
    (hlate : d ≠ .unlock ∧ d ≠ .free) :
    Counts p.min_workers p.running_workers p.workers d p.freed := by
  have hfreed : p.freed = false := Bool.eq_false_iff.2 fun hf => hret (h.counts.freed hf)
  have hcounts := h.counts
  rw [hfreed] at hcounts ⊢
  exact hcounts.setDestroyer hlate

theorem Good.setDestroyer {d : DestroyPc} (h : p.Good) (hret : p.destroyer ≠ .ret)
    (hgrab : d.grabs = true → p.destroyer.grabs = true)
    (hlock : d.locked = true → p.destroyer.locked = true)
    (hrest : d.rest = p.destroyer.rest) (hlate : d ≠ .unlock ∧ d ≠ .free) :
    ({ p with destroyer := d } : Pool).Good :=
  ⟨h.locks.setDestroyer hgrab hlock, by rw [hrest]; exact h.sound,
    h.counts_destroyer hret hlate, h.fine⟩

theorem Good.wakeDestroyer (h : p.Good) (hd : p.destroyer = .asleep) :
    ({ p with destroyer := .woken } : Pool).Good :=
  h.setDestroyer (by rw [hd]; simp) (by simp [DestroyPc.grabs])
    (by simp [DestroyPc.locked]) (by rw [hd]; rfl) (by simp)

theorem Good.work (h : p.Good) (hs : p._worker i = some q) : q.Good := by
  cases works hs with
  | lock hi hm | woken hi hm => exact h.lock hi hm rfl rfl (by simp) rfl rfl
  | front hi | task0 hi | test hi =>
    split_ifs <;>
      exact h.move hi (fun _ => rfl) (by simp [WorkerPc.counting]) rfl (by simp) rfl rfl
  | clear hi =>
    have h' : ({ p with wait_task_0 := false } : Pool).Good :=
      ⟨h.locks, h.sound, h.counts, h.fine⟩
    exact h'.move hi (fun _ => rfl) (by simp [WorkerPc.counting]) rfl (by simp) rfl rfl
  | broadcast hi =>
    have h' : p.broadcast.Good := ⟨h.locks.broadcast, h.sound, h.counts, h.fine⟩
    exact h'.move hi (fun _ => rfl) (by simp [WorkerPc.counting]) rfl (by simp) rfl rfl
  | wait hi | leave hi | unlock hi => exact h.unlock hi rfl rfl rfl rfl rfl (by simp) rfl
  | take hi => exact h.take hi
  | @call t hi =>
    obtain ⟨task, ht⟩ := h.heap_of_task (t := t) (i := i) (by rw [hi]; rfl)
    rw [call, ht]
    have h' : ({ p with log := p.log ++ [Event.start i task.taskfn] } : Pool).Good :=
      ⟨h.locks, h.sound, h.counts, h.fine⟩
    exact h'.move hi (by simp [WorkerPc.owns]) (by simp [WorkerPc.counting])
      rfl (by simp) rfl rfl
  | @again t hi =>
    obtain ⟨task, ht⟩ := h.heap_of_task (t := t) (i := i) (by rw [hi]; rfl)
    obtain ⟨locks, ⟨ts, ds, spot, sound⟩, counts, fine⟩ := h
    simp only [setNext, ht]
    refine ⟨locks.setWorker ?_ ?_, ⟨ts, ds, spot, ?_⟩, counts.setWorker ?_ ?_ ?_, fine⟩
    · simp [WorkerPc.owns]
    · simp [WorkerPc.counting]
    · have hnext : nexts (Function.update p.heap t (some { task with next := none })) =
          Function.update (nexts p.heap) t (some none) := nexts_update
      have hagain := sound.again hi
      rwa [← hnext] at hagain
    all_goals rw [hi]; simp [WorkerPc.counted, WorkerPc.gone]
  | @enq pc t r hi hr =>
    cases pc with
    | lock =>
      obtain ⟨r', hr', rfl⟩ := Option.map_eq_some_iff.1 hr
      obtain ⟨hm, rfl⟩ := lockTask_eq hr'
      exact h.lock hi hm rfl rfl (by simp) rfl rfl
    | link =>
      cases hr
      exact h.link_worker hi
    | unlock =>
      cases hr
      have howner := h.locks.worker i (by rw [hi]; rfl)
      have hunlock : (p.unlockTask (.worker i) fun p => p.setWorker i (.enq .signal t)).Good :=
        h.unlock hi rfl rfl rfl rfl rfl (by simp) rfl
      rw [unlockTask, if_pos howner] at hunlock ⊢
      exact hunlock
    | signal => cases hr
  | @free t hi =>
    obtain ⟨locks, ⟨ts, ds, spot, sound⟩, counts, fine⟩ := h
    have hnext : nexts (Function.update p.heap t none) = Function.update (nexts p.heap) t none :=
      nexts_update
    have hfree := sound.free hi
    rw [← hnext] at hfree
    refine ⟨locks.setWorker ?_ ?_, ⟨_, _, _, hfree⟩, counts.setWorker ?_ ?_ ?_, fine⟩
    all_goals rw [hi]; simp [WorkerPc.owns, WorkerPc.counting, WorkerPc.counted, WorkerPc.gone]
  | lockWorker hi hm =>
    obtain ⟨locks, ⟨ts, ds, spot, sound⟩, counts, fine⟩ := h
    rw [hm] at locks
    refine ⟨locks.beginCount rfl, ⟨ts, ds, spot, sound.setWorker (by rw [hi]; rfl) (by simp)⟩,
      counts.setWorker ?_ ?_ ?_, fine⟩
    all_goals rw [hi]; simp [WorkerPc.counted, WorkerPc.gone]
  | count hi =>
    obtain ⟨locks, ⟨ts, ds, spot, sound⟩, counts, fine⟩ := h
    exact ⟨locks.setWorker (by simp [WorkerPc.owns]) (by rw [hi]; exact fun _ => rfl),
      ⟨ts, ds, spot, sound.setWorker (by rw [hi]; rfl) (by simp)⟩, counts.leave hi, fine⟩
  | unlockWorker hi =>
    obtain ⟨locks, ⟨ts, ds, spot, sound⟩, counts, fine⟩ := h
    rw [unlockWorker, if_pos (locks.counting i (by rw [hi]; rfl))]
    refine ⟨locks.endCount (by rw [hi]; rfl) rfl rfl,
      ⟨ts, ds, spot, sound.setWorker (by rw [hi]; rfl) (by simp)⟩,
        counts.setWorker ?_ ?_ ?_, fine⟩
    all_goals rw [hi]; simp [WorkerPc.counted, WorkerPc.gone]
  | signalWorker hi =>
    have hmoved : (p.setWorker i .done).Good := by
      obtain ⟨locks, ⟨ts, ds, spot, sound⟩, counts, fine⟩ := h
      refine ⟨locks.setWorker ?_ ?_, ⟨ts, ds, spot, sound.setWorker (by rw [hi]; rfl) (by simp)⟩,
        counts.setWorker ?_ ?_ ?_, fine⟩
      all_goals rw [hi]; simp [WorkerPc.owns, WorkerPc.counting, WorkerPc.counted, WorkerPc.gone]
    rw [signalWorker]
    split_ifs with hd
    · exact hmoved.wakeDestroyer hd
    · exact hmoved

theorem Good.moveAdder {apc : AddPc} (h : p.Good)
    (howns : apc.owns = true → (p.adders k).owns = true)
    (htask : apc.task = (p.adders k).task)
    (hready : ∀ t, apc = .enq .lock t ∨ apc = .enq .link t → p.adders k = .enq .lock t) :
    (p.setAdder k apc).Good := by
  obtain ⟨locks, ⟨ts, ds, spot, sound⟩, counts, fine⟩ := h
  exact ⟨locks.setAdder howns, ⟨ts, ds, spot, sound.setAdder htask hready⟩, counts, fine⟩

theorem Good.link_adder (h : p.Good) (hk : p.adders k = .enq .link t) :
    ((p.link t).setAdder k (.enq .unlock t)).Good := by
  obtain ⟨locks, ⟨ts, ds, spot, sound⟩, counts, fine⟩ := h
  have hlocks :
      Locks p.task_m p.worker_m p.workers (Function.update p.adders k (.enq .unlock t)) p.waiters
      p.destroyer := locks.setAdder (by rw [hk]; exact fun _ => rfl)
  obtain ⟨hf, heq⟩ | ⟨ts', r, heap, rfl, hheap, heq⟩ := p.link_cases (t := t) sound
  · rw [hf] at sound
    rw [heq]
    exact ⟨hlocks, ⟨_, _, _, sound.pushFirst_adder hk⟩, counts, fine⟩
  · have hpush := sound.push_adder hk
    rw [← hheap] at hpush
    rw [heq]
    exact ⟨hlocks, ⟨_, _, _, hpush⟩, counts, fine⟩

theorem Good.adder (h : p.Good) (hs : p.thrpool_add_task k = some q) : q.Good := by
  rw [thrpool_add_task] at hs
  cases hk : p.adders k with
  | out | malloc | ret r =>
    rw [hk] at hs
    cases hs
  | test =>
    rw [hk] at hs
    cases hs
    split_ifs <;> exact h.moveAdder (by simp [AddPc.owns]) (by rw [hk]; rfl) (by simp)
  | enq pc t =>
    rw [hk] at hs
    obtain ⟨r, hr, rfl⟩ := Option.map_eq_some_iff.1 hs
    cases pc with
    | lock =>
      obtain ⟨r', hr', rfl⟩ := Option.map_eq_some_iff.1 hr
      obtain ⟨hm, rfl⟩ := lockTask_eq hr'
      obtain ⟨locks, ⟨ts, ds, spot, sound⟩, counts, fine⟩ := h
      rw [hm] at locks
      exact ⟨locks.lockAdder,
        ⟨ts, ds, spot, sound.setAdder (by rw [hk]; rfl) (by rw [hk]; simp)⟩, counts, fine⟩
    | link =>
      cases hr
      exact h.link_adder hk
    | unlock =>
      cases hr
      dsimp only
      rw [unlockTask, if_pos (h.locks.adder k (by rw [hk]; rfl))]
      obtain ⟨locks, ⟨ts, ds, spot, sound⟩, counts, fine⟩ := h
      exact ⟨locks.unlockAdder (by rw [hk]; rfl) rfl,
        ⟨ts, ds, spot, sound.setAdder (by rw [hk]; rfl) (by simp)⟩, counts, fine⟩
    | signal => cases hr

theorem Good.malloc (h : p.Good) (hk : p.adders k = .malloc) (ht : p.heap t = none) :
    ((p.setTask t (some ⟨k, none⟩)).setAdder k (.enq .lock t)).Good := by
  obtain ⟨locks, ⟨ts, ds, spot, sound⟩, counts, fine⟩ := h
  have hnext : nexts (Function.update p.heap t (some ⟨k, none⟩)) =
      Function.update (nexts p.heap) t (some none) := nexts_update
  have hmalloc := sound.malloc hk (by rw [nexts, ht]; rfl)
  rw [← hnext] at hmalloc
  exact ⟨locks.setAdder (by simp [AddPc.owns]), ⟨_, _, _, hmalloc⟩, counts, fine⟩

theorem Good.moveWaiter {wpc : WaitPc} (h : p.Good)
    (howns : wpc.owns = true → (p.waiters k).owns = true) : (p.setWaiter k wpc).Good :=
  ⟨h.locks.setWaiter howns, h.sound, h.counts, h.fine⟩

theorem Good.lockWaiter {wpc : WaitPc} (h : p.Good) (hm : p.task_m = none) :
    ({ p with task_m := some (.waiter k) }.setWaiter k wpc).Good := by
  have hlocks := h.locks
  rw [hm] at hlocks
  exact ⟨hlocks.lockWaiter, h.sound, h.counts, h.fine⟩

theorem Good.unlockWaiter {wpc : WaitPc} (h : p.Good) (hold : (p.waiters k).owns = true)
    (hpc : wpc.owns = false) : (p.unlockTask (.waiter k) fun p => p.setWaiter k wpc).Good := by
  rw [unlockTask, if_pos (h.locks.waiter k hold)]
  exact ⟨h.locks.unlockWaiter hold hpc, h.sound, h.counts, h.fine⟩

theorem Good.waiter (h : p.Good) (hs : p.thrpool_wait k = some q) : q.Good := by
  rw [thrpool_wait] at hs
  cases hk : p.waiters k with
  | out | asleep | ret =>
    rw [hk] at hs
    cases hs
  | test | front =>
    rw [hk] at hs
    cases hs
    split_ifs <;> exact h.moveWaiter (by rw [hk]; simp [WaitPc.owns])
  | lock | woken =>
    rw [hk] at hs
    obtain ⟨r, hr, rfl⟩ := Option.map_eq_some_iff.1 hs
    obtain ⟨hm, rfl⟩ := lockTask_eq hr
    exact h.lockWaiter hm
  | set =>
    rw [hk] at hs
    cases hs
    have h' : ({ p with wait_task_0 := true } : Pool).Good :=
      ⟨h.locks, h.sound, h.counts, h.fine⟩
    exact h'.moveWaiter
      (by rw [show ({ p with wait_task_0 := true } : Pool).waiters k = .set from hk]; exact id)
  | wait | unlock =>
    rw [hk] at hs
    cases hs
    exact h.unlockWaiter (by rw [hk]; rfl) rfl

theorem Good.drop (h : p.Good) (hd : p.destroyer = .drain (some t)) : (p.drain t).Good := by
  obtain ⟨locks, ⟨ts, ds, spot, sound⟩, counts, fine⟩ := h
  have hfreed : p.freed = false := Bool.eq_false_iff.2 fun hf => by
    rw [hd] at counts
    cases counts.freed hf
  rw [hd] at sound
  obtain ⟨b, hb⟩ :=
    sound.live_of ((sound.drained t).1 (by cases sound.drain; exact List.mem_cons_self))
  obtain ⟨task, ht, rfl⟩ := Option.map_eq_some_iff.1 hb
  obtain ⟨ds', hdrop⟩ := sound.drop hb
  have hnext : nexts (Function.update p.heap t none) = Function.update (nexts p.heap) t none :=
    nexts_update
  rw [← hnext] at hdrop
  simp only [Pool.drain, ht]
  refine ⟨locks.setDestroyer (by simp [DestroyPc.grabs]) (by simp [DestroyPc.locked]),
    ⟨ts, ds', _, hdrop⟩, ?_, fine⟩
  rw [hfreed] at counts
  change Counts _ _ _ _ p.freed
  rw [hfreed]
  exact counts.setDestroyer (by simp)

theorem Good.last (h : p.Good) (hd : p.destroyer = .check) (hrun : ¬ 0 < p.running_workers) :
    ({ p with destroyer := .unlock } : Pool).Good := by
  obtain ⟨locks, sound, counts, fine⟩ := h
  have hown := locks.checking (by rw [hd]; rfl)
  have hcount (i : Nat) : (p.workers i).counting = false := Bool.eq_false_iff.2 fun hi => by
    have hworker := locks.counting i hi
    rw [hown] at hworker
    cases hworker
  have hgone := counts.gone hrun hcount
  rw [hd] at sound counts
  refine ⟨locks.setDestroyer (by simp [DestroyPc.grabs]) (by rw [hd]; exact fun _ => rfl), sound,
    ⟨counts.absent, counts.count, fun _ => hgone, ?_⟩, fine⟩
  intro hf
  cases counts.freed hf

theorem Good.destroyer (h : p.Good) (hs : p.thrpool_destroy = some q) : q.Good := by
  rw [thrpool_destroy] at hs
  cases hd : p.destroyer with
  | out | signal | asleep | ret =>
    rw [hd] at hs
    cases hs
  | test wait =>
    rw [hd] at hs
    cases hs
    split_ifs <;> exact h.setDestroyer (by rw [hd]; simp) (by simp [DestroyPc.grabs])
      (by simp [DestroyPc.locked]) (by rw [hd]; rfl) (by simp)
  | lockTask =>
    rw [hd] at hs
    obtain ⟨r, hr, rfl⟩ := Option.map_eq_some_iff.1 hs
    obtain ⟨hm, rfl⟩ := lockTask_eq hr
    have hcounts := h.counts_destroyer (d := .grab) (by rw [hd]; simp) (by simp)
    obtain ⟨locks, sound, -, fine⟩ := h
    rw [hm] at locks
    rw [hd] at sound
    exact ⟨locks.lockDestroyer rfl, sound, hcounts, fine⟩
  | grab =>
    rw [hd] at hs
    cases hs
    have hcounts :=
      h.counts_destroyer (d := .unlockTask p.task_front) (by rw [hd]; simp) (by simp)
    obtain ⟨locks, ⟨ts, ds, spot, sound⟩, -, fine⟩ := h
    rw [hd] at sound
    exact ⟨locks.setDestroyer (by rw [hd]; exact id) (by rw [hd]; exact id),
      ⟨_, _, _, sound.grab⟩, hcounts, fine⟩
  | unlockTask t =>
    rw [hd] at hs
    cases hs
    have hcounts := h.counts_destroyer (d := .drain t) (by rw [hd]; simp) (by simp)
    obtain ⟨locks, sound, -, fine⟩ := h
    rw [unlockTask, if_pos (locks.destroyer (by rw [hd]; rfl))]
    rw [hd] at sound
    exact ⟨locks.unlockDestroyer (by rw [hd]; rfl) rfl rfl, sound, hcounts, fine⟩
  | drain t =>
    rw [hd] at hs
    cases t with
    | none =>
      cases hs
      exact h.setDestroyer (by rw [hd]; simp) (by simp [DestroyPc.grabs])
        (by simp [DestroyPc.locked]) (by rw [hd]; rfl) (by simp)
    | some t =>
      cases hs
      exact h.drop hd
  | set =>
    rw [hd] at hs
    cases hs
    have h' : ({ p with destroy := true } : Pool).Good := ⟨h.locks, h.sound, h.counts, h.fine⟩
    refine h'.setDestroyer ?_ ?_ ?_ ?_ ?_
    all_goals
      change p.destroyer = .set at hd
      simp [hd, DestroyPc.grabs, DestroyPc.locked, DestroyPc.rest]
  | lock | woken =>
    rw [hd] at hs
    obtain ⟨r, hr, rfl⟩ := Option.map_eq_some_iff.1 hs
    obtain ⟨hm, rfl⟩ := lockWorker_eq hr
    have hcounts := h.counts_destroyer (d := .check) (by rw [hd]; simp) (by simp)
    obtain ⟨locks, sound, -, fine⟩ := h
    rw [hm] at locks
    rw [hd] at sound
    exact ⟨locks.beginCheck rfl, sound, hcounts, fine⟩
  | check =>
    rw [hd] at hs
    cases hs
    split_ifs with hrun
    · exact h.setDestroyer (by rw [hd]; simp) (by simp [DestroyPc.grabs])
        (by rw [hd]; exact fun _ => rfl) (by rw [hd]; rfl) (by simp)
    · exact h.last hd hrun
  | wait =>
    rw [hd] at hs
    cases hs
    have hcounts := h.counts_destroyer (d := .asleep) (by rw [hd]; simp) (by simp)
    obtain ⟨locks, sound, -, fine⟩ := h
    rw [unlockWorker, if_pos (locks.checking (by rw [hd]; rfl))]
    rw [hd] at sound
    exact ⟨locks.endCheck (by rw [hd]; rfl) rfl rfl, sound, hcounts, fine⟩
  | unlock =>
    rw [hd] at hs
    cases hs
    obtain ⟨locks, sound, counts, fine⟩ := h
    rw [unlockWorker, if_pos (locks.checking (by rw [hd]; rfl))]
    rw [hd] at sound counts
    refine ⟨locks.endCheck (by rw [hd]; rfl) rfl rfl, sound,
      ⟨counts.absent, counts.count, ?_, ?_⟩, fine⟩
    · intro _
      exact counts.left (.inl rfl)
    · intro hf
      cases counts.freed hf
  | free =>
    rw [hd] at hs
    cases hs
    obtain ⟨locks, sound, counts, fine⟩ := h
    rw [hd] at sound counts
    refine ⟨locks.setDestroyer (by simp [DestroyPc.grabs]) (by simp [DestroyPc.locked]), sound,
      ⟨counts.absent, counts.count, ?_, fun _ => rfl⟩, fine⟩
    intro _
    exact counts.left (.inr (.inl rfl))

theorem Good.wake (h : p.Good) (hi : p.workers i = .asleep) : (p.setWorker i .woken).Good :=
  h.move hi (by simp [WorkerPc.owns]) (by simp [WorkerPc.counting]) rfl (by simp) rfl rfl

theorem Good.signaled {th : Thread} (h : p.Good) (hs : p.signaled th = some q) : q.Good := by
  cases th with
  | worker i =>
    rw [Pool.signaled] at hs
    split at hs
    · next t hi =>
      cases hs
      exact h.move hi (by simp [WorkerPc.owns]) (by simp [WorkerPc.counting])
        rfl (by simp) rfl rfl
    · cases hs
  | adder k =>
    rw [Pool.signaled] at hs
    split at hs
    · next t hk =>
      cases hs
      exact h.moveAdder (by simp [AddPc.owns]) (by rw [hk]; rfl) (by simp)
    · cases hs
  | destroyer =>
    obtain ⟨hd, hs⟩ := Option.ite_none_right_eq_some.1 hs
    cases hs
    exact h.setDestroyer (by rw [hd]; simp) (by simp [DestroyPc.grabs])
      (by rw [hd]; exact fun _ => rfl) (by rw [hd]; rfl) (by simp)
  | waiter k => cases hs

theorem Good.signal {w : Option Nat} (h : p.Good) (hs : p.signalTask w = some q) : q.Good := by
  obtain ⟨i, hi, rfl⟩ | ⟨rfl, -⟩ := signalTask_eq hs
  · exact h.wake hi
  · exact h

theorem Good.spurious {th : Thread} (h : p.Good) (hs : p.spurious th = some q) : q.Good := by
  cases th with
  | worker i =>
    obtain ⟨hi, hs⟩ := Option.ite_none_right_eq_some.1 hs
    cases hs
    exact h.wake hi
  | waiter k =>
    obtain ⟨hk, hs⟩ := Option.ite_none_right_eq_some.1 hs
    cases hs
    exact h.moveWaiter (by simp [WaitPc.owns])
  | destroyer =>
    obtain ⟨hd, hs⟩ := Option.ite_none_right_eq_some.1 hs
    cases hs
    exact h.wakeDestroyer hd
  | adder k => cases hs

theorem Good.act {a : Act} (h : p.Good) (hs : p.act a = some q) : q.Good := by
  cases a with
  | worker i => exact h.work hs
  | ret i again =>
    rw [Pool.act] at hs
    split at hs
    · next t k hi =>
      cases hs
      have h' : ({ p with log := p.log ++ [Event.ret i k again] } : Pool).Good :=
        ⟨h.locks, h.sound, h.counts, h.fine⟩
      refine h'.move hi ?_ ?_ ?_ ?_ ?_ rfl
      all_goals cases again <;>
        simp [WorkerPc.owns, WorkerPc.counting, WorkerPc.task, WorkerPc.counted]
    · cases hs
  | add k =>
    obtain ⟨hk, hs⟩ := Option.ite_none_right_eq_some.1 hs
    cases hs
    exact h.moveAdder (by simp [AddPc.owns]) (by rw [hk]; rfl) (by simp)
  | adder k => exact h.adder hs
  | malloc k t =>
    obtain ⟨⟨hk, ht⟩, hs⟩ := Option.ite_none_right_eq_some.1 hs
    cases hs
    exact h.malloc hk ht
  | wait k =>
    obtain ⟨hk, hs⟩ := Option.ite_none_right_eq_some.1 hs
    cases hs
    exact h.moveWaiter (by simp [WaitPc.owns])
  | waiter k => exact h.waiter hs
  | destroy wait =>
    obtain ⟨hd, hs⟩ := Option.ite_none_right_eq_some.1 hs
    cases hs
    exact h.setDestroyer (by rw [hd]; simp) (by simp [DestroyPc.grabs])
      (by simp [DestroyPc.locked]) (by rw [hd]; rfl) (by simp)
  | destroyer => exact h.destroyer hs
  | signal th w =>
    obtain ⟨r, hr, hs⟩ := Option.bind_eq_some_iff.1 hs
    exact (h.signaled hr).signal hs
  | spurious th => exact h.spurious hs

theorem Good.create (workers : Nat) : (create workers).Good where
  locks := by
    constructor
    case worker | counting =>
      intro i hi
      dsimp only [Pool.create] at hi
      split_ifs at hi <;> cases hi
    all_goals simp [Pool.create, AddPc.owns, WaitPc.owns, DestroyPc.grabs, DestroyPc.locked]
  sound := by
    refine ⟨[], [], fun _ => none, .nil, .nil, ?_, ?_, ?_, ?_, ?_, ?_, ?_, ?_⟩
    case refine_5 | refine_7 =>
      intro i t
      dsimp only [Pool.create]
      split_ifs <;> simp [WorkerPc.task]
    all_goals simp [Pool.create, nexts, AddPc.task]
  counts := by
    refine ⟨fun i hi => if_neg (Nat.not_lt.2 hi), ?_, ?_, ?_⟩
    · have hall :
          (List.range workers).countP (fun i => ((Pool.create workers).workers i).counted) =
          workers := by
        conv_rhs => rw [← List.length_range (n := workers)]
        apply List.countP_eq_length.2
        intro i hi
        dsimp only [Pool.create]
        rw [if_pos (List.mem_range.1 hi)]
        rfl
      exact congrArg Int.ofNat hall.symm
    · simp [Pool.create]
    · simp [Pool.create]
  fine := rfl

theorem Good.of_step {a : Act} (h : p.Good) (hs : p.step a = some q) (hq : q.faulted = false) :
    q.Good := by
  rcases step_cases hs with rfl | hs
  · cases hq
  · exact h.act hs

end

end Pool

/-- What holds of a pool that has not faulted, in whatever order its threads take their steps. -/
theorem good_of_reach {workers : Nat} {p : Pool} (h : (machine workers).Reach p)
    (hp : p.faulted = false) : p.Good := by
  have hor : p.faulted = true ∨ p.Good := by
    refine h.invariant (I := fun p : Pool => p.faulted = true ∨ p.Good) ?_ fun p a q hp _ hs =>
      ?_
    · rintro p rfl
      exact .inr (.create workers)
    · rcases hp with hp | hp
      · change p.step a = some q at hs
        rw [Pool.step, if_pos hp] at hs
        cases hs
      · cases hq : q.faulted with
        | false => exact .inr (hp.of_step hs hq)
        | true => exact .inl rfl
  exact hor.resolve_left (by rw [hp]; exact Bool.false_ne_true)

/-- In every run of the pool, with any number of workers, of calls of `thrpool_add_task` and
`thrpool_wait` and with either kind of `thrpool_destroy`, as long as nothing has faulted every
task in memory is at exactly one place: in the queue, among those that `thrpool_destroy` is
about to free, or in the hand of one thread. No pointer leads to a task that is not there. -/
theorem tasks_placed {workers : Nat} {p : Pool} (h : (machine workers).Reach p)
    (hp : p.faulted = false) :
    ∃ spot : Ptr → Option Spot, ∀ t, (spot t = none ↔ p.heap t = none) ∧
      (spot t = some .queue ↔ Reaches (nexts p.heap) p.task_front t) ∧
      (spot t = some .drain ↔ Reaches (nexts p.heap) p.destroyer.rest t) ∧
      (∀ i, spot t = some (.worker i) ↔ (p.workers i).task = some t) ∧
      ∀ k, spot t = some (.adder k) ↔ (p.adders k).task = some t := by
  obtain ⟨-, ⟨ts, ds, spot, sound⟩, -, -⟩ := good_of_reach h hp
  refine ⟨spot, fun t =>
    ⟨?_, ?_, ?_, fun i => (sound.worker i t).symm, fun k => (sound.adder k t).symm⟩⟩
  · rw [sound.live, nexts, Option.map_eq_none_iff]
  · rw [← sound.queued, sound.queue.mem_iff]
  · rw [← sound.drained, sound.drain.mem_iff]

theorem tasks_placed_one : ∃ p, (machine 1).Reach p ∧ p.task_front = some 7 ∧
    ∃ spot : Ptr → Option Spot, ∀ t, (spot t = none ↔ p.heap t = none) ∧
      (spot t = some .queue ↔ Reaches (nexts p.heap) p.task_front t) ∧
      (spot t = some .drain ↔ Reaches (nexts p.heap) p.destroyer.rest t) ∧
      (∀ i, spot t = some (.worker i) ↔ (p.workers i).task = some t) ∧
      ∀ k, spot t = some (.adder k) ↔ (p.adders k).task = some t := by
  have hrun : ((machine 1).exec (.create 1) adding).map (fun p => (p.faulted, p.task_front)) =
      some (false, some 7) := by
    decide +kernel
  obtain ⟨p, hp, hfinal⟩ := Option.map_eq_some_iff.1 hrun
  obtain ⟨hfine, hfront⟩ := Prod.mk.inj hfinal
  exact ⟨p, .of_exec rfl hp, hfront, tasks_placed (.of_exec rfl hp) hfine⟩

/-- The destroyer frees the pool before the last signal of the worker. -/
def early : List Act :=
  [.destroy true, .destroyer, .destroyer] ++ List.replicate 9 (.worker 0) ++
    List.replicate 4 .destroyer

/-- The first fault of a run is that the pool is used after `thrpool_destroy` has freed it: no
thread ever reaches for a task that is not there or unlocks a mutex that is not its own. It is
not a fault of the workers in their loop either: a worker can only be at its very last step, the
signal on `worker_c`, and otherwise it is a call of `thrpool_add_task` or `thrpool_wait`. -/
theorem fault_after_free {workers : Nat} {p q : Pool} {a : Act} (h : (machine workers).Reach p)
    (hp : p.faulted = false) (hs : p.step a = some q) (hq : q.faulted = true) :
    p.freed = true ∧ p.destroyer = .ret ∧
      ((∃ i, a = .worker i ∧ p.workers i = .signalWorker) ∨
        (∃ k, a = .adder k ∨ a = .waiter k ∨ ∃ w, a = .signal (.adder k) w)) := by
  have hgood := good_of_reach h hp
  rw [Pool.step, if_neg (by rw [hp]; exact Bool.false_ne_true)] at hs
  split_ifs at hs with huse
  · obtain ⟨hfreed, huse⟩ := huse
    refine ⟨hfreed, hgood.counts.freed hfreed, ?_⟩
    have hgone := hgood.counts.left (.inr (.inr hfreed))
    cases a with
    | worker i =>
      refine .inl ⟨i, rfl, ?_⟩
      have hi := hgone i
      revert hi huse
      rw [Pool.uses]
      cases p.workers i <;> simp [WorkerPc.gone]
    | adder k => exact .inr ⟨k, .inl rfl⟩
    | waiter k => exact .inr ⟨k, .inr (.inl rfl)⟩
    | signal th w =>
      have hth : (p.signaled th).isSome = true := huse
      cases th with
      | worker i =>
        have hi := hgone i
        revert hi hth
        rw [Pool.signaled]
        cases p.workers i <;> simp [WorkerPc.gone]
      | adder k => exact .inr ⟨k, .inr (.inr ⟨w, rfl⟩)⟩
      | waiter k => cases hth
      | destroyer =>
        rw [Pool.signaled, hgood.counts.freed hfreed] at hth
        cases hth
    | ret | add | malloc | wait | destroy | destroyer | spurious => cases huse
  · rw [(hgood.act hs).fine] at hq
    cases hq

theorem fault_after_free_signal : ∃ p q, (machine 1).Reach p ∧ p.step (.worker 0) = some q ∧
    p.freed = true ∧ p.destroyer = .ret ∧
      ((∃ i, Act.worker 0 = .worker i ∧ p.workers i = .signalWorker) ∨
        (∃ k, Act.worker 0 = .adder k ∨ Act.worker 0 = .waiter k ∨
          ∃ w, Act.worker 0 = .signal (.adder k) w)) := by
  have hrun :
      ((machine 1).exec (.create 1) early).bind (fun p => (p.step (.worker 0)).map fun q =>
      (p.faulted, q.faulted)) = some (false, true) := by
    decide +kernel
  obtain ⟨p, hp, hstep⟩ := Option.bind_eq_some_iff.1 hrun
  obtain ⟨q, hq, hfinal⟩ := Option.map_eq_some_iff.1 hstep
  obtain ⟨hfine, hfault⟩ := Prod.mk.inj hfinal
  exact ⟨p, q, .of_exec rfl hp, hq, fault_after_free (.of_exec rfl hp) hfine hq hfault⟩

end Misc.Thrpool
