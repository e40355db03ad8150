import Misc.Lib.Linked
import Misc.Thrpool.Staff

namespace Misc.Thrpool
open Misc.Lib
set_option autoImplicit true

def WorkerPc.task : WorkerPc → Option Ptr
  | .unlock t => t
  | .call t | .running t _ | .again t | .free t | .enq .lock t | .enq .link t => some t
  | _ => none

def AddPc.task : AddPc → Option Ptr
  | .enq .lock t | .enq .link t => some t
  | _ => none

theorem WorkerPc.task_of_leaving {pc : WorkerPc} (h : pc.leaving = true) : pc.task = none := by
  cases pc with
  | unlock t =>
    cases t with
    | none => rfl
    | some t => cases h
  | enq pc t => cases h
  | _ => first | rfl | cases h

theorem AddPc.task_of_idle {pc : AddPc} (h : pc.active = false) : pc.task = none := by
  cases pc <;> first | rfl | cases h

inductive Place
  | queued
  | worker (i : Nat)
  | adder (k : Nat)
  deriving DecidableEq

/-- The queue and the places of the tasks account for the memory. -/
structure Stored (next : Ptr → Option (Option Ptr)) (front rear : Option Ptr) (ts : List Ptr)
    (place : Ptr → Option Place) : Prop where
  linked : Linked next front ts
  rear : ∀ t, ts.getLast? = some t → rear = some t
  nodup : ts.Nodup
  queued : ∀ t, t ∈ ts ↔ place t = some .queued
  live : ∀ t, place t = none ↔ next t = none

/-- The places of the tasks account for what the threads have in hand. -/
structure Held (workers : Nat → WorkerPc) (adders : Nat → AddPc) (place : Ptr → Option Place) :
    Prop where
  worker : ∀ i t, (workers i).task = some t ↔ place t = some (.worker i)
  adder : ∀ k t, (adders k).task = some t ↔ place t = some (.adder k)

section
variable {next : Ptr → Option (Option Ptr)} {front rear : Option Ptr} {ts : List Ptr}
  {place : Ptr → Option Place} {t : Ptr}

theorem Stored.take {b : Option Ptr} {i : Nat} (h : Stored next (some t) rear ts place)
    (hb : next t = some b) :
    ∃ ts', Stored next b rear ts' (Function.update place t (some (.worker i))) ∧
      ts = t :: ts' := by
  obtain ⟨linked, hrear, nodup, queued, live⟩ := h
  obtain ⟨b', ts', rfl, hb', hl⟩ := linked.front_some
  obtain rfl : b' = b := Option.some.inj (hb'.symm.trans hb)
  refine ⟨ts', ⟨hl, ?_, ?_, ?_, ?_⟩, rfl⟩
  · intro r hr
    apply hrear
    rw [List.getLast?_cons, hr]
    rfl
  all_goals grind

theorem Stored.push_empty (h : Stored next none rear ts place) (ht : next t = some none) :
    Stored next (some t) (some t) [t] (Function.update place t (some .queued)) := by
  obtain ⟨linked, hrear, nodup, queued, live⟩ := h
  obtain rfl := linked.front_none
  refine ⟨.cons ht .nil, ?_, ?_, ?_, ?_⟩
  all_goals grind

theorem Stored.push {r : Ptr} {pl : Place} (h : Stored next front rear (ts ++ [r]) place)
    (ht : next t = some none) (hpl : place t = some pl) (hq : pl ≠ .queued) :
    Stored (Function.update next r (some (some t))) front (some t) (ts ++ [r, t])
      (Function.update place t (some .queued)) := by
  obtain ⟨linked, hrear, nodup, queued, live⟩ := h
  have hr : place r = some .queued := (queued r).1 (by simp)
  refine ⟨linked.push ?_ ?_ ?_, ?_, ?_, ?_, ?_⟩
  all_goals grind

theorem Stored.unlink {pl : Place} (h : Stored next front rear ts place)
    (hpl : place t = some pl) (hq : pl ≠ .queued) :
    Stored (Function.update next t (some none)) front rear ts place := by
  obtain ⟨linked, hrear, nodup, queued, live⟩ := h
  refine ⟨linked.congr ?_, hrear, nodup, queued, ?_⟩
  all_goals grind

theorem Stored.malloc {pl : Place} (h : Stored next front rear ts place)
    (ht : next t = none) (hq : pl ≠ .queued) :
    Stored (Function.update next t (some none)) front rear ts
      (Function.update place t (some pl)) := by
  obtain ⟨linked, hrear, nodup, queued, live⟩ := h
  refine ⟨linked.congr ?_, hrear, nodup, ?_, ?_⟩
  all_goals grind

theorem Stored.free {pl : Place} (h : Stored next front rear ts place)
    (hpl : place t = some pl) (hq : pl ≠ .queued) :
    Stored (Function.update next t none) front rear ts (Function.update place t none) := by
  obtain ⟨linked, hrear, nodup, queued, live⟩ := h
  refine ⟨linked.congr ?_, hrear, nodup, ?_, ?_⟩
  all_goals grind

variable {ws : Nat → WorkerPc} {as : Nat → AddPc} {i k : Nat} {pc : WorkerPc} {pc' : AddPc}

theorem Held.worker_same (h : Held ws as place) (hpc : pc.task = (ws i).task) :
    Held (Function.update ws i pc) as place := by
  obtain ⟨worker, adder⟩ := h
  refine ⟨?_, adder⟩
  grind

theorem Held.worker_take (h : Held ws as place) (hold : (ws i).task = none)
    (hpc : pc.task = some t)
    (ht : place t = some .queued) :
    Held (Function.update ws i pc) as (Function.update place t (some (.worker i))) := by
  obtain ⟨worker, adder⟩ := h
  constructor
  all_goals grind

theorem Held.worker_give {pl : Option Place} (h : Held ws as place) (hold : (ws i).task = some t)
    (hpc : pc.task = none) (hpl : pl = none ∨ pl = some .queued) :
    Held (Function.update ws i pc) as (Function.update place t pl) := by
  obtain ⟨worker, adder⟩ := h
  constructor
  all_goals grind

theorem Held.adder_same (h : Held ws as place) (hpc : pc'.task = (as k).task) :
    Held ws (Function.update as k pc') place := by
  obtain ⟨worker, adder⟩ := h
  refine ⟨worker, ?_⟩
  grind

theorem Held.adder_take (h : Held ws as place) (hold : (as k).task = none)
    (hpc : pc'.task = some t)
    (ht : place t = none) :
    Held ws (Function.update as k pc') (Function.update place t (some (.adder k))) := by
  obtain ⟨worker, adder⟩ := h
  constructor
  all_goals grind

theorem Held.adder_give (h : Held ws as place) (hold : (as k).task = some t)
    (hpc : pc'.task = none) :
    Held ws (Function.update as k pc') (Function.update place t (some .queued)) := by
  obtain ⟨worker, adder⟩ := h
  constructor
  all_goals grind

end

/-- The runs of a task that has asked each time to be run again. Each is by one worker, from its
start to its end. -/
inductive Paused (k : Nat) : List Event → Prop
  | nil : Paused k []
  | again : Paused k es → Paused k (es ++ [.start i k, .ret i k true])

/-- The runs of a task whose last run has returned 0. -/
inductive Finished (k : Nat) : List Event → Prop
  | last : Paused k es → Finished k (es ++ [.start i k, .ret i k false])

inductive Started (i k : Nat) : List Event → Prop
  | start : Paused k es → Started i k (es ++ [.start i k])

theorem Started.ret {again : Bool} (h : Started i k es) :
    if again then Paused k (es ++ [.ret i k again])
      else Finished k (es ++ [.ret i k again]) := by
  obtain ⟨h⟩ := h
  rw [List.append_assoc]
  cases again with
  | true => exact .again h
  | false => exact .last h

def WorkerPc.Standing (i k : Nat) (es : List Event) : WorkerPc → Prop
  | .running _ _ => Started i k es
  | .free _ => Finished k es
  | _ => Paused k es

def Standing (ws : Nat → WorkerPc) (k : Nat) (es : List Event) : Place → Prop
  | .worker i => (ws i).Standing i k es
  | _ => Paused k es

/-- The call has taken memory for its task. -/
def AddPc.entered : AddPc → Bool
  | .enq _ _ | .ret 0 => true
  | _ => false

def runs (log : List Event) (k : Nat) : List Event := log.filter fun e => e.task = k

/-- What has been run agrees with the places of the tasks. -/
structure Logged (fn : Ptr → Option Nat) (log : List Event) (place : Ptr → Option Place)
    (ws : Nat → WorkerPc) (as : Nat → AddPc) : Prop where
  single : ∀ t t' k, fn t = some k → fn t' = some k → t = t'
  early : ∀ k, (as k).entered = false → runs log k = [] ∧ ∀ t, fn t ≠ some k
  standing : ∀ t k pl, fn t = some k → place t = some pl → Standing ws k (runs log k) pl
  running : ∀ i t k, ws i = .running t k → fn t = some k
  kept : ∀ k, (as k).entered = true → Finished k (runs log k) ∨ ∃ t, fn t = some k

section
variable {fn : Ptr → Option Nat} {log : List Event} {place : Ptr → Option Place}
  {ws : Nat → WorkerPc} {as : Nat → AddPc} {i k : Nat} {pc old : WorkerPc}
  {pc' : AddPc} {t : Ptr}

theorem Logged.worker_same (h : Logged fn log place ws as) (hi : ws i = old)
    (hpc : ∀ k es, old.Standing i k es → pc.Standing i k es) (hrun : ∀ t k, pc ≠ .running t k) :
    Logged fn log place (Function.update ws i pc) as := by
  subst hi
  obtain ⟨single, early, standing, running, kept⟩ := h
  refine ⟨single, early, ?_, ?_, kept⟩
  · intro t k pl ht hpl
    have hs := standing t k pl ht hpl
    cases pl with
    | worker j =>
      by_cases hj : j = i
      · subst hj
        rw [Standing, Function.update_self]
        exact hpc _ _ hs
      · rw [Standing, Function.update_of_ne hj]
        exact hs
    | queued => exact hs
    | adder k => exact hs
  · grind

theorem Logged.adder_same (h : Logged fn log place ws as)
    (hpc : pc'.entered = (as k).entered) :
    Logged fn log place ws (Function.update as k pc') := by
  obtain ⟨single, early, standing, running, kept⟩ := h
  refine ⟨single, ?_, standing, running, ?_⟩
  all_goals grind

theorem Logged.move {pl pl' : Place} (h : Logged fn log place ws as) (hpl : place t = some pl)
    (hpaused : ∀ k es, Standing ws k es pl → Paused k es)
    (hpl' : ∀ k es, Paused k es → Standing ws k es pl') :
    Logged fn log (Function.update place t (some pl')) ws as := by
  obtain ⟨single, early, standing, running, kept⟩ := h
  refine ⟨single, early, ?_, running, kept⟩
  intro t' k pl'' ht hpl''
  by_cases he : t' = t
  · subst he
    rw [Function.update_self] at hpl''
    cases hpl''
    exact hpl' _ _ (hpaused _ _ (standing _ _ _ ht hpl))
  · rw [Function.update_of_ne he] at hpl''
    exact standing _ _ _ ht hpl''

theorem Logged.worker_free (h : Logged fn log place ws as) (hi : ∀ t, place t ≠ some (.worker i))
    (hrun : ∀ t k, pc ≠ .running t k) : Logged fn log place (Function.update ws i pc) as := by
  obtain ⟨single, early, standing, running, kept⟩ := h
  refine ⟨single, early, ?_, ?_, kept⟩
  · intro t k pl ht hpl
    have hs := standing t k pl ht hpl
    cases pl with
    | worker j =>
      have hj : j ≠ i := by
        rintro rfl
        exact hi t hpl
      rw [Standing, Function.update_of_ne hj]
      exact hs
    | queued => exact hs
    | adder k => exact hs
  · grind

theorem runs_append (log : List Event) (e : Event) (k : Nat) :
    runs (log ++ [e]) k = if e.task = k then runs log k ++ [e] else runs log k := by
  rw [runs, List.filter_append, List.filter_singleton, ← runs]
  split_ifs with h <;> simp [h]

theorem Logged.event {e : Event} (h : Logged fn log place ws as) (ht : fn t = some e.task)
    (hpl : place t = some (.worker i)) (hi : ∀ t', place t' = some (.worker i) → t' = t)
    (hpc : (ws i).Standing i e.task (runs log e.task) →
      pc.Standing i e.task (runs log e.task ++ [e]))
    (hrun : ∀ t' k, pc = .running t' k → t' = t ∧ k = e.task) :
    Logged fn (log ++ [e]) place (Function.update ws i pc) as := by
  obtain ⟨single, early, standing, running, kept⟩ := h
  constructor
  case single => exact single
  case early =>
    intro k hk
    have hne : e.task ≠ k := by
      rintro rfl
      exact (early _ hk).2 t ht
    rw [runs_append, if_neg hne]
    exact early k hk
  case standing =>
    intro t' k pl ht' hpl'
    rw [runs_append]
    split_ifs with he
    · subst he
      obtain rfl := single _ _ _ ht' ht
      obtain rfl := Option.some.inj (hpl'.symm.trans hpl)
      rw [Standing, Function.update_self]
      exact hpc (standing _ _ _ ht hpl)
    · have hs := standing t' k pl ht' hpl'
      cases pl with
      | worker j =>
        have hj : j ≠ i := by
          rintro rfl
          obtain rfl := hi t' hpl'
          exact he (Option.some.inj (ht.symm.trans ht'))
        rw [Standing, Function.update_of_ne hj]
        exact hs
      | queued => exact hs
      | adder k => exact hs
  case running =>
    intro j t' k hj
    by_cases hji : j = i
    · subst hji
      rw [Function.update_self] at hj
      obtain ⟨rfl, rfl⟩ := hrun t' k hj
      exact ht
    · rw [Function.update_of_ne hji] at hj
      exact running j t' k hj
  case kept =>
    intro k hk
    by_cases he : e.task = k
    · exact .inr ⟨t, he ▸ ht⟩
    · rw [runs_append, if_neg he]
      exact kept k hk

theorem Logged.free (h : Logged fn log place ws as) (ht : fn t = some k)
    (hfin : Finished k (runs log k)) (hrun : ∀ j k, ws j ≠ .running t k) :
    Logged (Function.update fn t none) log (Function.update place t none) ws as := by
  obtain ⟨single, early, standing, running, kept⟩ := h
  constructor
  case kept =>
    intro k' hk'
    by_cases he : k' = k
    · exact .inl (he ▸ hfin)
    · apply (kept k' hk').imp_right
      rintro ⟨t', ht'⟩
      have hne : t' ≠ t := by
        rintro rfl
        exact he (Option.some.inj (ht'.symm.trans ht))
      exact ⟨t', (Function.update_of_ne hne ..).trans ht'⟩
  all_goals grind

theorem Logged.malloc (h : Logged fn log place ws as) (hk : (as k).entered = false)
    (ht : fn t = none)
    (hpc : pc'.entered = true) :
    Logged (Function.update fn t (some k)) log (Function.update place t (some (.adder k))) ws
      (Function.update as k pc') := by
  obtain ⟨single, early, standing, running, kept⟩ := h
  obtain ⟨hnil, hnone⟩ := early k hk
  constructor
  case standing =>
    intro t' k' pl ht' hpl
    by_cases he : t' = t
    · subst he
      rw [Function.update_self] at ht' hpl
      cases ht'
      cases hpl
      rw [hnil]
      exact .nil
    · rw [Function.update_of_ne he] at ht' hpl
      exact standing t' k' pl ht' hpl
  case kept =>
    intro k' hk'
    by_cases he : k' = k
    · exact .inr ⟨t, he ▸ Function.update_self ..⟩
    · rw [Function.update_of_ne he] at hk'
      apply (kept k' hk').imp_right
      rintro ⟨t', ht'⟩
      have hne : t' ≠ t := by
        rintro rfl
        cases ht.symm.trans ht'
      exact ⟨t', (Function.update_of_ne hne ..).trans ht'⟩
  all_goals grind

end

def nexts (heap : Ptr → Option Task) (t : Ptr) : Option (Option Ptr) := (heap t).map Task.next

def fns (heap : Ptr → Option Task) (t : Ptr) : Option Nat := (heap t).map Task.taskfn

/-- The memory, the threads and the log agree. A task that is about to be linked is the last of
its list. -/
structure Ledger (heap : Ptr → Option Task) (front rear : Option Ptr) (log : List Event)
    (ws : Nat → WorkerPc) (as : Nat → AddPc) (ts : List Ptr)
    (place : Ptr → Option Place) : Prop where
  stored : Stored (nexts heap) front rear ts place
  held : Held ws as place
  logged : Logged (fns heap) log place ws as
  ready : ∀ i t, ws i = .enq .lock t ∨ ws i = .enq .link t → nexts heap t = some none
  added : ∀ k t, as k = .enq .lock t ∨ as k = .enq .link t → nexts heap t = some none

section
variable {heap : Ptr → Option Task} {front rear : Option Ptr} {log : List Event}
  {ws : Nat → WorkerPc} {as : Nat → AddPc} {ts : List Ptr}
  {place : Ptr → Option Place} {i k : Nat}
  {pc old : WorkerPc} {pc' : AddPc} {t : Ptr} {task : Task}

theorem nexts_update {task : Option Task} :
    nexts (Function.update heap t task) =
      Function.update (nexts heap) t (task.map Task.next) := by
  funext t'
  rw [nexts]
  by_cases he : t' = t
  · subst he
    rw [Function.update_self, Function.update_self]
  · rw [Function.update_of_ne he, Function.update_of_ne he, nexts]

theorem fns_update {task : Option Task} :
    fns (Function.update heap t task) = Function.update (fns heap) t (task.map Task.taskfn) := by
  funext t'
  rw [fns]
  by_cases he : t' = t
  · subst he
    rw [Function.update_self, Function.update_self]
  · rw [Function.update_of_ne he, Function.update_of_ne he, fns]

theorem fns_next (ht : heap t = some task) (n : Option Ptr) :
    fns (Function.update heap t (some { task with next := n })) = fns heap := by
  rw [fns_update]
  exact Function.update_eq_self_iff.2 (by rw [fns, ht]; rfl)

theorem Ledger.move (h : Ledger heap front rear log ws as ts place) (hi : ws i = old)
    (htask : pc.task = old.task) (hstand : ∀ k es, old.Standing i k es → pc.Standing i k es)
    (hrun : ∀ t k, pc ≠ .running t k)
    (hready : ∀ t, pc = .enq .lock t ∨ pc = .enq .link t → old = .enq .lock t) :
    Ledger heap front rear log (Function.update ws i pc) as ts place := by
  subst hi
  obtain ⟨stored, held, logged, ready, added⟩ := h
  refine ⟨stored, held.worker_same htask, logged.worker_same rfl hstand hrun, ?_, added⟩
  grind

theorem Ledger.setAdder (h : Ledger heap front rear log ws as ts place)
    (htask : pc'.task = (as k).task) (hent : pc'.entered = (as k).entered)
    (hready : ∀ t, pc' = .enq .lock t ∨ pc' = .enq .link t → as k = .enq .lock t) :
    Ledger heap front rear log ws (Function.update as k pc') ts place := by
  obtain ⟨stored, held, logged, ready, added⟩ := h
  refine ⟨stored, held.adder_same htask, logged.adder_same hent, ready, ?_⟩
  grind

theorem Ledger.place_of (h : Ledger heap front rear log ws as ts place)
    (ht : (ws i).task = some t) :
    place t = some (.worker i) :=
  (h.held.worker i t).1 ht

theorem Ledger.task_of (h : Ledger heap front rear log ws as ts place)
    (ht : (ws i).task = some t) : ∃ task, heap t = some task := by
  have hlive := h.stored.live t
  rw [h.place_of ht, nexts] at hlive
  cases hheap : heap t with
  | none => simp [hheap] at hlive
  | some task => exact ⟨task, rfl⟩

theorem Ledger.take (h : Ledger heap (some t) rear log ws as ts place) (hi : ws i = .take)
    (ht : heap t = some task) :
    ∃ ts, Ledger heap task.next rear log (Function.update ws i (.unlock (some t))) as ts
      (Function.update place t (some (.worker i))) := by
  obtain ⟨stored, held, logged, ready, added⟩ := h
  have hn : nexts heap t = some task.next := by
    rw [nexts, ht]
    rfl
  obtain ⟨ts', hs, rfl⟩ := stored.take (i := i) hn
  have hpl : place t = some .queued := (stored.queued t).1 List.mem_cons_self
  have hfree (t' : Ptr) : place t' ≠ some (.worker i) := by
    rw [Ne, ← held.worker, hi]
    nofun
  have hlogged : Logged (fns heap) log place (Function.update ws i (.unlock (some t))) as :=
    logged.worker_free hfree nofun
  refine ⟨ts', hs, held.worker_take (hi ▸ rfl) rfl hpl, ?_, ?_, added⟩
  · apply hlogged.move hpl
    · intro _ _ h
      exact h
    · intro k es hes
      rw [Standing, Function.update_self]
      exact hes
  · grind

theorem Held.ready (h : Held ws as place) (hi : ws i = .enq .lock t ∨ ws i = .enq .link t) :
    place t = some (.worker i) := by
  apply (h.worker i t).1
  rcases hi with hi | hi <;> rw [hi] <;> rfl

theorem Held.added (h : Held ws as place) (hk : as k = .enq .lock t ∨ as k = .enq .link t) :
    place t = some (.adder k) := by
  apply (h.adder k t).1
  rcases hk with hk | hk <;> rw [hk] <;> rfl

theorem ready_of_ne {j : Nat} {t' : Ptr} (hj : Function.update ws i pc j = .enq .lock t' ∨
    Function.update ws i pc j = .enq .link t') (hpc :
    ∀ t, pc ≠ .enq .lock t ∧ pc ≠ .enq .link t) :
    j ≠ i ∧ (ws j = .enq .lock t' ∨ ws j = .enq .link t') := by
  have hne : j ≠ i := by
    rintro rfl
    rw [Function.update_self] at hj
    exact hj.elim (hpc t').1 (hpc t').2
  rw [Function.update_of_ne hne] at hj
  exact ⟨hne, hj⟩

theorem link_stored {p : Pool} {pl : Place}
    (h : Stored (nexts p.heap) p.task_front p.task_rear ts place)
    (ht : nexts p.heap t = some none) (hpl : place t = some pl) (hq : pl ≠ .queued) :
    ∃ ts, Stored (nexts (p.link t).heap) (p.link t).task_front (p.link t).task_rear ts
        (Function.update place t (some .queued)) ∧
      fns (p.link t).heap = fns p.heap ∧
      ∀ t', place t' ≠ some .queued → nexts (p.link t).heap t' = nexts p.heap t' := by
  rw [Pool.link]
  cases hf : p.task_front with
  | none =>
    rw [hf] at h
    exact ⟨_, h.push_empty ht, rfl, fun _ _ => rfl⟩
  | some f =>
    rw [hf] at h
    have hne : ts ≠ [] := by
      rintro rfl
      cases h.linked
    obtain ⟨ts', r, rfl⟩ := (List.eq_nil_or_concat' ts).resolve_left hne
    have hr : p.task_rear = some r := h.rear r (by simp)
    have hpr : place r = some .queued := (h.queued r).1 (by simp)
    have hlive := h.live r
    rw [hpr, nexts] at hlive
    dsimp only
    rw [Pool.linkRear, hr]
    dsimp only
    rw [Pool.setNext]
    cases hheap : p.heap r with
    | none => simp [hheap] at hlive
    | some task =>
      have hpush := h.push ht hpl hq
      have hnext : nexts (Function.update p.heap r (some { task with next := some t })) =
          Function.update (nexts p.heap) r (some (some t)) := nexts_update
      refine ⟨ts' ++ [r, t], ?_, fns_next hheap _, ?_⟩
      · dsimp only [Pool.setTask]
        rw [hnext, hf]
        exact hpush
      · intro t' ht'
        dsimp only [Pool.setTask]
        rw [hnext, Function.update_of_ne]
        rintro rfl
        exact ht' hpr

theorem Ledger.link_worker {p : Pool}
    (h : Ledger p.heap p.task_front p.task_rear log ws as ts place) (hi : ws i = .enq .link t) :
    ∃ ts, Ledger (p.link t).heap (p.link t).task_front (p.link t).task_rear log
      (Function.update ws i (.enq .unlock t)) as ts
        (Function.update place t (some .queued)) := by
  have hpl := h.place_of (i := i) (t := t) (hi ▸ rfl)
  obtain ⟨stored, held, logged, ready, added⟩ := h
  obtain ⟨ts', hs, hfn, hnext⟩ := link_stored stored (ready i t (.inr hi)) hpl nofun
  have hlogged : Logged (fns p.heap) log place (Function.update ws i (.enq .unlock t)) as :=
    logged.worker_same hi (fun _ _ h => h) nofun
  refine ⟨ts', hs, held.worker_give (hi ▸ rfl) rfl (.inr rfl), ?_, ?_, ?_⟩
  · rw [hfn]
    apply hlogged.move hpl
    · intro k es hes
      rw [Standing, Function.update_self] at hes
      exact hes
    · intro _ _ h
      exact h
  · intro j t' hj
    obtain ⟨-, hj⟩ := ready_of_ne hj fun _ => ⟨nofun, nofun⟩
    rw [hnext t' (by rw [held.ready hj]; nofun)]
    exact ready j t' hj
  · intro k t' hk
    rw [hnext t' (by rw [held.added hk]; nofun)]
    exact added k t' hk

theorem Ledger.link_adder {p : Pool}
    (h : Ledger p.heap p.task_front p.task_rear log ws as ts place) (hk : as k = .enq .link t) :
    ∃ ts, Ledger (p.link t).heap (p.link t).task_front (p.link t).task_rear log
      ws (Function.update as k (.enq .unlock t)) ts
        (Function.update place t (some .queued)) := by
  have hpl := (h.held.adder k t).1 (hk ▸ rfl)
  obtain ⟨stored, held, logged, ready, added⟩ := h
  obtain ⟨ts', hs, hfn, hnext⟩ := link_stored stored (added k t (.inr hk)) hpl nofun
  have hlogged : Logged (fns p.heap) log place ws (Function.update as k (.enq .unlock t)) := by
    apply logged.adder_same
    rw [hk]
    rfl
  refine ⟨ts', hs, held.adder_give (hk ▸ rfl) rfl, ?_, ?_, ?_⟩
  · rw [hfn]
    exact hlogged.move hpl (fun _ _ h => h) fun _ _ h => h
  · intro j t' hj
    rw [hnext t' (by rw [held.ready hj]; nofun)]
    exact ready j t' hj
  · intro j t' hj
    have hne : j ≠ k := by
      rintro rfl
      rw [Function.update_self] at hj
      rcases hj with hj | hj <;> cases hj
    rw [Function.update_of_ne hne] at hj
    rw [hnext t' (by rw [held.added hj]; nofun)]
    exact added j t' hj

theorem Ledger.again (h : Ledger heap front rear log ws as ts place) (hi : ws i = .again t)
    (ht : heap t = some task) :
    Ledger (Function.update heap t (some { task with next := none })) front rear log
      (Function.update ws i (.enq .lock t)) as ts place := by
  have hpl := h.place_of (i := i) (t := t) (hi ▸ rfl)
  obtain ⟨stored, held, logged, ready, added⟩ := h
  have hnext : nexts (Function.update heap t (some { task with next := none })) =
      Function.update (nexts heap) t (some none) := nexts_update
  refine ⟨?_, held.worker_same (hi ▸ rfl), ?_, ?_, ?_⟩
  · rw [hnext]
    exact stored.unlink hpl nofun
  · rw [fns_next ht]
    exact logged.worker_same hi (fun _ _ h => h) nofun
  all_goals
    rw [hnext]
    grind

theorem Ledger.free (h : Ledger heap front rear log ws as ts place) (hi : ws i = .free t) :
    Ledger (Function.update heap t none) front rear log (Function.update ws i .lock) as ts
      (Function.update place t none) := by
  have hpl := h.place_of (i := i) (t := t) (hi ▸ rfl)
  obtain ⟨task, ht⟩ := h.task_of (i := i) (t := t) (hi ▸ rfl)
  obtain ⟨stored, held, logged, ready, added⟩ := h
  have hnext : nexts (Function.update heap t none) = Function.update (nexts heap) t none :=
    nexts_update
  have hfn : fns (Function.update heap t none) = Function.update (fns heap) t none := fns_update
  have hft : fns heap t = some task.taskfn := by
    rw [fns, ht]
    rfl
  have hfin := logged.standing t _ _ hft hpl
  rw [Standing, hi] at hfin
  have hrun (j k : Nat) : ws j ≠ .running t k := by
    intro hj
    have hpl' := (held.worker j t).1 (hj ▸ rfl)
    cases hpl.symm.trans hpl'
    cases hi.symm.trans hj
  refine ⟨?_, held.worker_give (hi ▸ rfl) rfl (.inl rfl), ?_, ?_, ?_⟩
  · rw [hnext]
    exact stored.free hpl nofun
  · rw [hfn]
    refine (logged.free hft hfin hrun).worker_free ?_ nofun
    intro t' ht'
    by_cases he : t' = t
    · subst he
      rw [Function.update_self] at ht'
      cases ht'
    · rw [Function.update_of_ne he, ← held.worker, hi] at ht'
      exact he (Option.some.inj ht').symm
  · intro j t' hj
    obtain ⟨hne, hj⟩ := ready_of_ne hj fun _ => ⟨nofun, nofun⟩
    have hother : t' ≠ t := by
      rintro rfl
      cases hpl.symm.trans (held.ready hj)
      exact hne rfl
    rw [hnext, Function.update_of_ne hother]
    exact ready j t' hj
  · intro k t' hk
    have hother : t' ≠ t := by
      rintro rfl
      cases hpl.symm.trans (held.added hk)
    rw [hnext, Function.update_of_ne hother]
    exact added k t' hk

theorem Ledger.malloc (h : Ledger heap front rear log ws as ts place) (hk : as k = .malloc)
    (ht : heap t = none) :
    Ledger (Function.update heap t (some ⟨k, none⟩)) front rear log ws
      (Function.update as k (.enq .lock t)) ts (Function.update place t (some (.adder k))) := by
  obtain ⟨stored, held, logged, ready, added⟩ := h
  have hnext : nexts (Function.update heap t (some ⟨k, none⟩)) =
      Function.update (nexts heap) t (some none) := nexts_update
  have hfn : fns (Function.update heap t (some ⟨k, none⟩)) =
      Function.update (fns heap) t (some k) :=
    fns_update
  have htn : nexts heap t = none := by
    rw [nexts, ht]
    rfl
  have htf : fns heap t = none := by
    rw [fns, ht]
    rfl
  refine ⟨?_, held.adder_take (hk ▸ rfl) rfl ((stored.live t).2 htn), ?_, ?_, ?_⟩
  · rw [hnext]
    exact stored.malloc htn nofun
  · rw [hfn]
    exact logged.malloc (hk ▸ rfl) htf rfl
  all_goals
    rw [hnext]
    grind

theorem Ledger.call (h : Ledger heap front rear log ws as ts place) (hi : ws i = .call t)
    (ht : heap t = some task) :
    Ledger heap front rear (log ++ [Event.start i task.taskfn])
      (Function.update ws i (.running t task.taskfn)) as ts place := by
  have hpl := h.place_of (i := i) (t := t) (hi ▸ rfl)
  obtain ⟨stored, held, logged, ready, added⟩ := h
  have hft : fns heap t = some task.taskfn := by
    rw [fns, ht]
    rfl
  have honly (t' : Ptr) (ht' : place t' = some (.worker i)) : t' = t := by
    rw [← held.worker, hi] at ht'
    exact (Option.some.inj ht').symm
  refine ⟨stored, held.worker_same (hi ▸ rfl), ?_, ?_, added⟩
  · apply logged.event hft hpl honly
    · rw [hi]
      exact .start
    · intro t' k h
      cases h
      exact ⟨rfl, rfl⟩
  · grind

theorem Ledger.ret {again : Bool} (h : Ledger heap front rear log ws as ts place)
    (hi : ws i = .running t k) :
    Ledger heap front rear (log ++ [Event.ret i k again])
      (Function.update ws i (if again then .again t else .free t)) as ts place := by
  have hpl := h.place_of (i := i) (t := t) (hi ▸ rfl)
  obtain ⟨stored, held, logged, ready, added⟩ := h
  have hft := logged.running i t k hi
  have honly (t' : Ptr) (ht' : place t' = some (.worker i)) : t' = t := by
    rw [← held.worker, hi] at ht'
    exact (Option.some.inj ht').symm
  refine ⟨stored, held.worker_same ?_, ?_, ?_, added⟩
  · rw [hi]
    split_ifs <;> rfl
  · apply logged.event hft hpl honly
    · rw [hi]
      intro hs
      have hret := @Started.ret i k _ again hs
      cases again <;> exact hret
    · split_ifs <;> nofun
  · grind

end

end Misc.Thrpool
