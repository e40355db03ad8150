import Misc.Thrpool.Pool
import Mathlib.Tactic.ByContra

namespace Misc.Thrpool
open Misc.Lib
set_option autoImplicit true

def WorkerPc.owns : WorkerPc → Bool
  | .front | .task0 | .clear | .broadcast | .test | .wait | .take | .unlock _ => true
  | .enq .link _ | .enq .unlock _ => true
  | _ => false

/-- The worker has seen an empty queue after `destroy` was set, and takes no task any more. -/
def WorkerPc.leaving : WorkerPc → Bool
  | .unlock none | .lockWorker | .count | .unlockWorker | .signalWorker | .done => true
  | _ => false

def WorkerPc.counted : WorkerPc → Bool
  | .unlockWorker | .signalWorker | .done => false
  | _ => true

theorem WorkerPc.leaving_of_uncounted {pc : WorkerPc} (h : pc.counted = false) :
    pc.leaving = true := by
  cases pc <;> first | rfl | cases h

def AddPc.active : AddPc → Bool
  | .out | .ret _ => false
  | _ => true

def DestroyPc.waits : DestroyPc → Bool
  | .test false | .lockTask | .grab | .unlockTask _ | .drain _ => false
  | _ => true

def DestroyPc.early : DestroyPc → Bool
  | .out | .test _ | .set => true
  | _ => false

def DestroyPc.late : DestroyPc → Bool
  | .unlock | .free | .ret => true
  | _ => false

namespace Pool

def staff (p : Pool) : Nat := (List.range p.min_workers).countP fun i => (p.workers i).counted

structure Staffed (p : Pool) : Prop where
  enough : 0 < p.min_workers
  absent : ∀ i, p.min_workers ≤ i → p.workers i = .done
  owner : ∀ i, (p.workers i).owns = true → p.task_m = some (.worker i)
  taking : ∀ i, p.workers i = .take → p.destroy = true ∨ p.task_front ≠ none
  leaving : ∀ i, (p.workers i).leaving = true → p.min_workers ≤ i ∨ p.destroy = true
  staffed : p.task_front ≠ none → ∃ i, (p.workers i).leaving = false
  waits : p.destroyer.waits = true
  early : p.destroyer.early = true → p.destroy = false
  closed : p.destroyer ≠ .out → ∀ k, (p.adders k).active = false
  count : p.running_workers = p.staff
  late : p.destroyer.late = true → ∀ i, (p.workers i).counted = false

variable {p q : Pool} {i : Nat} {pc old : WorkerPc}

theorem staff_setWorker (h : pc.counted = (p.workers i).counted) :
    (p.setWorker i pc).staff = p.staff := by
  rw [staff, staff]
  congr 1
  funext j
  dsimp only [setWorker]
  by_cases hj : j = i
  · subst hj
    rw [Function.update_self, h]
  · rw [Function.update_of_ne hj]

theorem staff_succ {ws : Nat → WorkerPc} {n : Nat} (hi : i < n) (h : (ws i).counted = true)
    (hpc : pc.counted = false) :
    (List.range n).countP (fun j => (Function.update ws i pc j).counted) + 1 =
      (List.range n).countP fun j => (ws j).counted := by
  induction n with
  | zero => cases hi
  | succ n ih =>
    rw [List.range_succ, List.countP_append, List.countP_append, List.countP_singleton,
      List.countP_singleton]
    by_cases he : n = i
    · subst he
      have hrest : (List.range n).countP (fun j => (Function.update ws n pc j).counted) =
          (List.range n).countP fun j => (ws j).counted := by
        apply List.countP_congr
        intro j hj
        rw [Function.update_of_ne (Nat.ne_of_lt (List.mem_range.1 hj))]
      rw [hrest, Function.update_self, hpc, h]
      rfl
    · rw [Function.update_of_ne he, ← ih (by omega)]
      omega

theorem staff_zero {ws : Nat → WorkerPc} {n : Nat}
    (h : (List.range n).countP (fun j => (ws j).counted) = 0)
    (hi : i < n) : (ws i).counted = false := by
  rw [List.countP_eq_zero] at h
  simpa using h i (List.mem_range.2 hi)

/-- The pools agree in what the invariant is about. -/
structure SameStaff (p q : Pool) : Prop where
  min_workers : q.min_workers = p.min_workers
  task_m : q.task_m = p.task_m
  destroy : q.destroy = p.destroy
  running_workers : q.running_workers = p.running_workers
  task_front : q.task_front = p.task_front
  workers : q.workers = p.workers
  adders : q.adders = p.adders
  destroyer : q.destroyer = p.destroyer

theorem Staffed.congr (h : p.Staffed) (hs : p.SameStaff q) : q.Staffed := by
  obtain ⟨hn, hm, hd, hc, hf, hw, ha, hr⟩ := hs
  constructor
  case enough => exact hn ▸ h.enough
  case absent => rw [hn, hw]; exact h.absent
  case owner => rw [hm, hw]; exact h.owner
  case taking => rw [hw, hd, hf]; exact h.taking
  case leaving => rw [hw, hn, hd]; exact h.leaving
  case staffed => rw [hf, hw]; exact h.staffed
  case waits => rw [hr]; exact h.waits
  case early => rw [hr, hd]; exact h.early
  case closed => rw [hr, ha]; exact h.closed
  case count => rw [hc, staff, hn, hw]; exact h.count
  case late => rw [hr, hw]; exact h.late

theorem Staffed.set {m : Option Thread} (h : p.Staffed) (hi : p.workers i = old)
    (hold : old ≠ .done)
    (hm : ∀ j, j ≠ i → (p.workers j).owns = true → m = some (.worker j))
    (howns : pc.owns = true → m = some (.worker i))
    (htake : pc = .take → p.destroy = true ∨ p.task_front ≠ none)
    (hleave : pc.leaving = old.leaving) (hcount : pc.counted = old.counted) :
    ({ p with task_m := m }.setWorker i pc).Staffed := by
  subst hi
  have hstaff := staff_setWorker (p := { p with task_m := m }) hcount
  obtain ⟨enough, absent, owner, taking, leaving, staffed, waits, early, closed, count, late⟩ :=
    h
  constructor
  case staffed =>
    intro hf
    apply exists_update (P := (WorkerPc.leaving · = false)) (staffed hf)
    intro hi
    exact hleave.trans hi
  case count => exact count.trans (congrArg _ hstaff.symm)
  all_goals
    dsimp only [setWorker]
    grind

theorem Staffed.move (h : p.Staffed) (hi : p.workers i = old) (hold : old ≠ .done)
    (howns : pc.owns = true → old.owns = true)
    (htake : pc = .take → p.destroy = true ∨ p.task_front ≠ none)
    (hleave : pc.leaving = old.leaving) (hcount : pc.counted = old.counted) :
    (p.setWorker i pc).Staffed := by
  apply h.set hi hold (fun j _ hj => h.owner j hj) _ htake hleave hcount
  intro ho
  exact h.owner i (hi ▸ howns ho)

theorem Staffed.lock (h : p.Staffed) (hi : p.workers i = old) (hold : old ≠ .done)
    (hm : p.task_m = none) (htake : pc ≠ .take) (hleave : pc.leaving = old.leaving)
    (hcount : pc.counted = old.counted) :
    ({ p with task_m := some (.worker i) }.setWorker i pc).Staffed := by
  apply h.set hi hold _ (fun _ => rfl) (fun h => absurd h htake) hleave hcount
  intro j _ hj
  cases hm.symm.trans (h.owner j hj)

theorem Staffed.unlock (h : p.Staffed) (hi : p.workers i = old) (hold : old ≠ .done)
    (howns : pc.owns = false) (hleave : pc.leaving = old.leaving)
    (hcount : pc.counted = old.counted) :
    (p.unlockTask (.worker i) fun p => p.setWorker i pc).Staffed := by
  rw [unlockTask]
  split_ifs with hm
  · apply h.set hi hold _ (fun ho => nomatch howns.symm.trans ho) _ hleave hcount
    · intro j hne hj
      cases hm.symm.trans (h.owner j hj)
      exact absurd rfl hne
    · rintro rfl
      cases howns
  · exact h.congr ⟨rfl, rfl, rfl, rfl, rfl, rfl, rfl, rfl⟩

theorem Staffed.setNext (h : p.Staffed) (t : Ptr) (next : Option Ptr) :
    (p.setNext t next).Staffed := by
  obtain ⟨heap, faulted, he⟩ := p.setNext_eq t next
  rw [he]
  exact h.congr ⟨rfl, rfl, rfl, rfl, rfl, rfl, rfl, rfl⟩

theorem Staffed.link (h : p.Staffed) (t : Ptr) (hex : ∃ i, (p.workers i).leaving = false) :
    (p.link t).Staffed := by
  have hf := p.link_front t
  obtain ⟨heap, front, faulted, he⟩ := p.link_eq t
  rw [he] at hf ⊢
  obtain ⟨enough, absent, owner, taking, leaving, staffed, waits, early, closed, count, late⟩ :=
    h
  exact ⟨enough, absent, owner, fun _ _ => .inr hf, leaving, fun _ => hex, waits, early, closed,
    count, late⟩

theorem Staffed.take (h : p.Staffed) (hi : p.workers i = .take) : (p.take i).Staffed := by
  have hown := h.owner i (hi ▸ rfl)
  rw [Pool.take]
  cases hf : p.task_front with
  | none =>
    have hd := h.taking i hi
    have hcount : (WorkerPc.unlock none).counted = (p.workers i).counted := hi ▸ rfl
    have hstaff := staff_setWorker hcount
    obtain ⟨enough, absent, owner, taking, leaving, staffed, waits, early,
      closed, count, late⟩ := h
    constructor
    case staffed => exact fun h => absurd hf h
    case count => exact count.trans (congrArg _ hstaff.symm)
    all_goals
      dsimp only [setWorker]
      grind
  | some t =>
    dsimp only
    cases p.heap t with
    | none => exact h.congr ⟨rfl, rfl, rfl, rfl, rfl, rfl, rfl, rfl⟩
    | some task =>
      have hcount : (WorkerPc.unlock (some t)).counted = (p.workers i).counted := hi ▸ rfl
      have hstaff := staff_setWorker (p := { p with task_front := task.next }) hcount
      obtain ⟨enough, absent, owner, taking, leaving, staffed, waits, early,
        closed, count, late⟩ := h
      dsimp only
      constructor
      case staffed =>
        intro _
        exact ⟨i, congrArg WorkerPc.leaving (Function.update_self i _ p.workers)⟩
      case count => exact count.trans (congrArg _ hstaff.symm)
      all_goals
        dsimp only [setWorker]
        grind [WorkerPc.owns, WorkerPc.leaving]

theorem Staffed.call {t : Ptr} (h : p.Staffed) (hi : p.workers i = .call t) :
    (p.call i t).Staffed := by
  rw [Pool.call]
  cases p.heap t with
  | none => exact h.congr ⟨rfl, rfl, rfl, rfl, rfl, rfl, rfl, rfl⟩
  | some task =>
    have h := h.congr (q := { p with log := p.log ++ [Event.start i task.taskfn] })
      ⟨rfl, rfl, rfl, rfl, rfl, rfl, rfl, rfl⟩
    exact h.move hi nofun nofun nofun rfl rfl

theorem signalWorker_workers (p : Pool) : p.signalWorker.workers = p.workers := by
  rw [Pool.signalWorker]
  split_ifs <;> rfl

theorem Staffed.signalWorker (h : p.Staffed) : p.signalWorker.Staffed := by
  rw [Pool.signalWorker]
  split_ifs with hr
  · obtain ⟨enough, absent, owner, taking, leaving, staffed, waits, early,
      closed, count, late⟩ := h
    exact ⟨enough, absent, owner, taking, leaving, staffed, rfl, nofun, fun _ =>
      closed (by rw [hr]; nofun), count, nofun⟩
  · exact h

theorem Staffed.leave (h : p.Staffed) (hi : p.workers i = .count) :
    ({ p with running_workers := p.running_workers - 1 }.setWorker i .unlockWorker).Staffed := by
  have hlt : i < p.min_workers := by
    by_contra hge
    have hdone := h.absent i (by omega)
    rw [hi] at hdone
    cases hdone
  have hstaff :
      ({ p with running_workers := p.running_workers - 1 }.setWorker i .unlockWorker).staff + 1 =
      p.staff :=
    staff_succ hlt (hi ▸ rfl) rfl
  have hnew : p.running_workers - 1 =
      ({ p with running_workers := p.running_workers - 1 }.setWorker i .unlockWorker).staff := by
    have hcount := h.count
    omega
  obtain ⟨enough, absent, owner, taking, leaving, staffed, waits, early, closed, count, late⟩ :=
    h
  constructor
  case staffed =>
    intro hf
    apply exists_update (P := (WorkerPc.leaving · = false)) (staffed hf)
    rw [hi]
    nofun
  case count =>
    exact hnew
  all_goals
    dsimp only [setWorker]
    grind [WorkerPc.owns, WorkerPc.leaving, WorkerPc.counted]

theorem Staffed.worker (h : p.Staffed) (hs : p._worker i = some q) : q.Staffed := by
  cases works hs with
  | lock hi hm | woken hi hm => exact h.lock hi nofun hm nofun rfl rfl
  | front hi =>
    split_ifs with hf
    · exact h.move hi nofun id nofun rfl rfl
    · exact h.move hi nofun id (fun _ => .inr hf) rfl rfl
  | task0 hi => split_ifs <;> exact h.move hi nofun id nofun rfl rfl
  | clear hi =>
    have h :=
      h.congr (q := { p with wait_task_0 := false }) ⟨rfl, rfl, rfl, rfl, rfl, rfl, rfl, rfl⟩
    exact h.move hi nofun id nofun rfl rfl
  | broadcast hi =>
    have h := h.congr (q := p.broadcast) ⟨rfl, rfl, rfl, rfl, rfl, rfl, rfl, rfl⟩
    exact h.move hi nofun id nofun rfl rfl
  | test hi =>
    split_ifs with hd
    · exact h.move hi nofun id (fun _ => .inl hd) rfl rfl
    · exact h.move hi nofun id nofun rfl rfl
  | wait hi | leave hi | unlock hi => exact h.unlock hi nofun rfl rfl rfl
  | take hi => exact h.take hi
  | call hi => exact h.call hi
  | @again t hi =>
    have h := h.setNext t none
    obtain ⟨heap, faulted, he⟩ := p.setNext_eq t none
    rw [he] at h ⊢
    exact h.move hi nofun nofun nofun rfl rfl
  | @enq pc t r hi hr =>
    cases pc with
    | lock =>
      obtain ⟨r', hr', rfl⟩ := Option.map_eq_some_iff.1 hr
      obtain ⟨hm, rfl⟩ := lockTask_eq hr'
      exact h.lock hi nofun hm nofun rfl rfl
    | link =>
      cases hr
      have h := h.link t ⟨i, hi ▸ rfl⟩
      obtain ⟨heap, front, faulted, he⟩ := p.link_eq t
      rw [he] at h ⊢
      exact h.move hi nofun id nofun rfl rfl
    | unlock =>
      cases hr
      dsimp only
      rw [unlockTask]
      split_ifs with hm
      · have hothers (j : Nat) (hne : j ≠ i) (hj : (p.workers j).owns = true) :
            none = some (Thread.worker j) := by
          cases hm.symm.trans (h.owner j hj)
          exact absurd rfl hne
        exact h.set hi nofun hothers nofun nofun rfl rfl
      · have h := h.congr (q := p.fault) ⟨rfl, rfl, rfl, rfl, rfl, rfl, rfl, rfl⟩
        exact h.move hi nofun nofun nofun rfl rfl
    | signal => cases hr
  | @free t hi =>
    have h := h.congr (q := p.setTask t none) ⟨rfl, rfl, rfl, rfl, rfl, rfl, rfl, rfl⟩
    exact h.move hi nofun nofun nofun rfl rfl
  | lockWorker hi =>
    have h := h.congr (q := { p with worker_m := some (.worker i) })
      ⟨rfl, rfl, rfl, rfl, rfl, rfl, rfl, rfl⟩
    exact h.move hi nofun nofun nofun rfl rfl
  | count hi => exact h.leave hi
  | unlockWorker hi =>
    rw [unlockWorker]
    split_ifs
    · have h :=
        h.congr (q := { p with worker_m := none }) ⟨rfl, rfl, rfl, rfl, rfl, rfl, rfl, rfl⟩
      exact h.move hi nofun nofun nofun rfl rfl
    · exact h.congr ⟨rfl, rfl, rfl, rfl, rfl, rfl, rfl, rfl⟩
  | signalWorker hi =>
    have hsig := h.signalWorker
    have hi : p.signalWorker.workers i = .signalWorker := by
      rw [signalWorker_workers, hi]
    exact hsig.move hi nofun nofun nofun rfl rfl

theorem Staffed.queue {m : Option Thread} (h : p.Staffed)
    (hm : m = p.task_m ∨ p.task_m = none ∨ ∃ th, p.task_m = some th ∧ ∀ i, th ≠ .worker i) :
    ({ p with task_m := m }).Staffed := by
  obtain ⟨enough, absent, owner, taking, leaving, staffed, waits, early, closed, count, late⟩ :=
    h
  refine ⟨enough, absent, ?_, taking, leaving, staffed, waits, early, closed, count, late⟩
  intro i hi
  have hown := owner i hi
  rcases hm with rfl | hm | ⟨th, hm, hth⟩
  · exact hown
  · cases hm.symm.trans hown
  · cases hm.symm.trans hown
    exact absurd rfl (hth i)

theorem Staffed.lockTask {th : Thread} (h : p.Staffed) (hs : p.lockTask th = some q) :
    q.Staffed := by
  obtain ⟨hm, rfl⟩ := lockTask_eq hs
  exact h.queue (.inr (.inl hm))

theorem Staffed.unlockTask {th : Thread} {go : Pool → Pool} (h : p.Staffed)
    (hth : ∀ i, th ≠ .worker i)
    (hgo : ∀ r : Pool, r.Staffed → (go r).Staffed) : (p.unlockTask th go).Staffed := by
  rw [Pool.unlockTask]
  split_ifs with hm
  · exact hgo _ (h.queue (.inr (.inr ⟨th, hm, hth⟩)))
  · exact h.congr ⟨rfl, rfl, rfl, rfl, rfl, rfl, rfl, rfl⟩

theorem Staffed.setAdder {k : Nat} {pc : AddPc} (h : p.Staffed) (hk : p.destroyer = .out) :
    (p.setAdder k pc).Staffed := by
  obtain ⟨enough, absent, owner, taking, leaving, staffed, waits, early, closed, count, late⟩ :=
    h
  exact ⟨enough, absent, owner, taking, leaving, staffed, waits, early, fun hr =>
    absurd hk hr, count, late⟩

theorem Staffed.present (h : p.Staffed) (hr : p.destroyer = .out) : ∃ i,
    (p.workers i).leaving = false := by
  refine ⟨0, ?_⟩
  rw [← Bool.not_eq_true]
  intro hl
  have hd := h.early (hr ▸ rfl)
  rcases h.leaving 0 hl with hn | hd'
  · exact absurd hn (Nat.not_le_of_lt h.enough)
  · cases hd.symm.trans hd'

theorem Staffed.out (h : p.Staffed) {k : Nat} (hk : (p.adders k).active = true) :
    p.destroyer = .out := by
  by_contra hr
  cases hk.symm.trans (h.closed hr k)

theorem Staffed.adder {k : Nat} (h : p.Staffed) (hs : p.thrpool_add_task k = some q) :
    q.Staffed := by
  rw [thrpool_add_task] at hs
  cases hk : p.adders k with
  | test =>
    rw [hk] at hs
    cases hs
    exact h.setAdder (h.out (k := k) (hk ▸ rfl))
  | enq pc t =>
    rw [hk] at hs
    have hout := h.out (k := k) (hk ▸ rfl)
    obtain ⟨r, hr, rfl⟩ := Option.map_eq_some_iff.1 hs
    cases pc with
    | lock =>
      obtain ⟨r', hr', rfl⟩ := Option.map_eq_some_iff.1 hr
      have h := h.lockTask hr'
      obtain ⟨-, rfl⟩ := lockTask_eq hr'
      exact h.setAdder hout
    | link =>
      cases hr
      have h := h.link t (h.present hout)
      obtain ⟨heap, front, faulted, he⟩ := p.link_eq t
      rw [he] at h ⊢
      exact h.setAdder hout
    | unlock =>
      cases hr
      dsimp only
      rw [Pool.unlockTask]
      split_ifs with hm
      · exact (h.queue (.inr (.inr ⟨.adder k, hm, nofun⟩))).setAdder hout
      · have h := h.congr (q := p.fault) ⟨rfl, rfl, rfl, rfl, rfl, rfl, rfl, rfl⟩
        exact h.setAdder hout
    | signal => cases hr
  | out | malloc | ret r =>
    rw [hk] at hs
    cases hs

theorem Staffed.waiter {k : Nat} (h : p.Staffed) (hs : p.thrpool_wait k = some q) :
    q.Staffed := by
  rw [thrpool_wait] at hs
  cases hk : p.waiters k with
  | test | front | set =>
    rw [hk] at hs
    cases hs
    exact h.congr ⟨rfl, rfl, rfl, rfl, rfl, rfl, rfl, rfl⟩
  | lock | woken =>
    rw [hk] at hs
    obtain ⟨r, hr, rfl⟩ := Option.map_eq_some_iff.1 hs
    exact (h.lockTask hr).congr ⟨rfl, rfl, rfl, rfl, rfl, rfl, rfl, rfl⟩
  | wait | unlock =>
    rw [hk] at hs
    cases hs
    exact h.unlockTask nofun fun r hr => hr.congr ⟨rfl, rfl, rfl, rfl, rfl, rfl, rfl, rfl⟩
  | out | asleep | ret =>
    rw [hk] at hs
    cases hs

theorem Staffed.setDestroyer {r : DestroyPc} (h : p.Staffed) (hw : r.waits = true)
    (he : r.early = true → p.destroy = false) (hc : ∀ k, (p.adders k).active = false)
    (hl : r.late = true → ∀ i, (p.workers i).counted = false) :
    ({ p with destroyer := r }).Staffed :=
  ⟨h.enough, h.absent, h.owner, h.taking, h.leaving, h.staffed, hw, he, fun _ => hc, h.count, hl⟩

theorem Staffed.none_left (h : p.Staffed) (hc : ¬ 0 < p.running_workers) (i : Nat) :
    (p.workers i).counted = false := by
  rcases Nat.lt_or_ge i p.min_workers with hlt | hge
  · apply staff_zero _ hlt
    have hcount := h.count
    rw [staff] at hcount
    omega
  · rw [h.absent i hge]
    rfl

theorem Staffed.destroyer (h : p.Staffed) (hs : p.thrpool_destroy = some q) : q.Staffed := by
  rw [thrpool_destroy] at hs
  have hw := h.waits
  have hc : p.destroyer ≠ .out → _ := h.closed
  cases hr : p.destroyer with
  | test wait =>
    rw [hr] at hs hw hc
    cases wait with
    | false => cases hw
    | true =>
      have hd := h.early (hr ▸ rfl)
      cases hs
      rw [if_neg (ne_true_of_eq_false hd), if_pos rfl]
      exact h.setDestroyer rfl (fun _ => hd) (hc nofun) nofun
  | lockTask | grab | unlockTask t | drain t =>
    rw [hr] at hw
    cases hw
  | set =>
    rw [hr] at hs hc
    cases hs
    obtain ⟨enough, absent, owner, taking, leaving, staffed, waits, early,
      closed, count, late⟩ := h
    exact ⟨enough, absent, owner, fun _ _ => .inl rfl, fun _ _ => .inr rfl, staffed, rfl, nofun,
      fun _ => hc nofun, count, nofun⟩
  | lock | woken =>
    rw [hr] at hs hc
    obtain ⟨r, hl, rfl⟩ := Option.map_eq_some_iff.1 hs
    obtain ⟨-, rfl⟩ := lockWorker_eq hl
    have h := h.congr (q := { p with worker_m := some .destroyer })
      ⟨rfl, rfl, rfl, rfl, rfl, rfl, rfl, rfl⟩
    exact h.setDestroyer rfl nofun (hc nofun) nofun
  | check =>
    rw [hr] at hs hc
    cases hs
    split_ifs with hrun
    · exact h.setDestroyer rfl nofun (hc nofun) nofun
    · exact h.setDestroyer rfl nofun (hc nofun) fun _ => h.none_left hrun
  | wait =>
    rw [hr] at hs hc
    cases hs
    rw [unlockWorker]
    split_ifs
    · have h :=
        h.congr (q := { p with worker_m := none }) ⟨rfl, rfl, rfl, rfl, rfl, rfl, rfl, rfl⟩
      exact h.setDestroyer rfl nofun (hc nofun) nofun
    · exact h.congr ⟨rfl, rfl, rfl, rfl, rfl, rfl, rfl, rfl⟩
  | unlock =>
    rw [hr] at hs hc
    have hl := h.late (hr ▸ rfl)
    cases hs
    rw [unlockWorker]
    split_ifs
    · have h :=
        h.congr (q := { p with worker_m := none }) ⟨rfl, rfl, rfl, rfl, rfl, rfl, rfl, rfl⟩
      exact h.setDestroyer rfl nofun (hc nofun) fun _ => hl
    · exact h.congr ⟨rfl, rfl, rfl, rfl, rfl, rfl, rfl, rfl⟩
  | free =>
    rw [hr] at hs hc
    have hl := h.late (hr ▸ rfl)
    cases hs
    have h := h.congr (q := { p with freed := true }) ⟨rfl, rfl, rfl, rfl, rfl, rfl, rfl, rfl⟩
    exact h.setDestroyer rfl nofun (hc nofun) fun _ => hl
  | out | signal | asleep | ret =>
    rw [hr] at hs
    cases hs

theorem Staffed.wake (h : p.Staffed) (hi : p.workers i = .asleep) :
    (p.setWorker i .woken).Staffed :=
  h.move hi nofun nofun nofun rfl rfl

theorem Staffed.signal {w : Option Nat} (h : p.Staffed) (hs : p.signalTask w = some q) :
    q.Staffed := by
  rcases signalTask_eq hs with ⟨i, hi, rfl⟩ | ⟨rfl, -⟩
  · exact h.wake hi
  · exact h

theorem Staffed.signaled {th : Thread} (h : p.Staffed) (hs : p.signaled th = some q) :
    q.Staffed := by
  cases th with
  | worker i =>
    rw [Pool.signaled] at hs
    split at hs
    case h_2 => cases hs
    case h_1 t hi =>
      cases hs
      exact h.move hi nofun nofun nofun rfl rfl
  | adder k =>
    rw [Pool.signaled] at hs
    split at hs
    case h_2 => cases hs
    case h_1 t hk =>
      cases hs
      exact h.setAdder (h.out (k := k) (hk ▸ rfl))
  | destroyer =>
    rw [Pool.signaled] at hs
    split_ifs at hs with hr
    cases hs
    exact h.setDestroyer rfl nofun (h.closed (hr ▸ nofun)) nofun
  | waiter k => cases hs

theorem Staffed.spurious {th : Thread} (h : p.Staffed) (hs : p.spurious th = some q) :
    q.Staffed := by
  cases th with
  | worker i =>
    rw [Pool.spurious] at hs
    split_ifs at hs with hi
    cases hs
    exact h.wake hi
  | waiter k =>
    rw [Pool.spurious] at hs
    split_ifs at hs
    cases hs
    exact h.congr ⟨rfl, rfl, rfl, rfl, rfl, rfl, rfl, rfl⟩
  | destroyer =>
    rw [Pool.spurious] at hs
    split_ifs at hs with hr
    cases hs
    exact h.setDestroyer rfl nofun (h.closed (hr ▸ nofun)) nofun
  | adder k => cases hs

/-- All calls of `thrpool_add_task` return before `thrpool_destroy(pool, 1)` is called. -/
def Served (p : Pool) : Act → Prop
  | .add _ => p.destroyer = .out
  | .destroy wait => wait = true ∧ ∀ k, (p.adders k).active = false
  | _ => True

theorem Staffed.act {a : Act} (h : p.Staffed) (hok : p.Served a) (hs : p.act a = some q) :
    q.Staffed := by
  cases a with
  | worker i => exact h.worker hs
  | adder k => exact h.adder hs
  | waiter k => exact h.waiter hs
  | destroyer => exact h.destroyer hs
  | spurious th => exact h.spurious hs
  | signal th w =>
    obtain ⟨r, hr, hs⟩ := Option.bind_eq_some_iff.1 hs
    exact (h.signaled hr).signal hs
  | ret i again =>
    rw [Pool.act] at hs
    split at hs
    case h_2 => cases hs
    case h_1 t k hi =>
      cases hs
      have h := h.congr (q := { p with log := p.log ++ [Event.ret i k again] })
        ⟨rfl, rfl, rfl, rfl, rfl, rfl, rfl, rfl⟩
      cases again <;> exact h.move hi nofun nofun nofun rfl rfl
  | add k =>
    simp only [Pool.act, Option.ite_none_right_eq_some] at hs
    obtain ⟨-, hs⟩ := hs
    cases hs
    exact h.setAdder hok
  | malloc k t =>
    simp only [Pool.act, Option.ite_none_right_eq_some] at hs
    obtain ⟨⟨hk, -⟩, hs⟩ := hs
    cases hs
    have hout := h.out (k := k) (hk ▸ rfl)
    have h :=
      h.congr (q := p.setTask t (some ⟨k, none⟩)) ⟨rfl, rfl, rfl, rfl, rfl, rfl, rfl, rfl⟩
    exact h.setAdder hout
  | wait k =>
    simp only [Pool.act, Option.ite_none_right_eq_some] at hs
    obtain ⟨-, hs⟩ := hs
    cases hs
    exact h.congr ⟨rfl, rfl, rfl, rfl, rfl, rfl, rfl, rfl⟩
  | destroy wait =>
    simp only [Pool.act, Option.ite_none_right_eq_some] at hs
    obtain ⟨hr, hs⟩ := hs
    obtain ⟨rfl, hc⟩ := hok
    cases hs
    exact h.setDestroyer rfl (fun _ => h.early (hr ▸ rfl)) hc nofun

theorem Staffed.step {a : Act} (h : p.Staffed) (hok : p.Served a) (hs : p.step a = some q) :
    q.Staffed := by
  rcases step_cases hs with rfl | hs
  · exact h.congr ⟨rfl, rfl, rfl, rfl, rfl, rfl, rfl, rfl⟩
  · exact h.act hok hs

theorem Staffed.create {workers : Nat} (hw : 0 < workers) : (create workers).Staffed := by
  refine ⟨hw, ?_, ?_, ?_, ?_, fun h => absurd rfl h, rfl, fun _ => rfl, fun h =>
    absurd rfl h, ?_, nofun⟩
  case refine_5 =>
    have hall : (Pool.create workers).staff = (List.range workers).length := by
      apply List.countP_eq_length.2
      intro i hi
      rw [Pool.create]
      dsimp only
      rw [if_pos (show i < workers from List.mem_range.1 hi)]
      rfl
    rw [hall, List.length_range]
    rfl
  all_goals
    dsimp only [Pool.create]
    grind [WorkerPc.owns, WorkerPc.leaving]

end Pool
end Misc.Thrpool
