import Misc.Yagw.Ownership

namespace Misc.Yagw
open Misc.Lib
set_option autoImplicit true

variable {s s' : Shared} {w w' : Worker} {t t' : Conn}

/-- No operation of the worker on this descriptor is in progress. -/
def WorkerPc.away : WorkerPc → Bool
  | .poll | .loc | .block => true
  | _ => false

/-- Input is pending, nobody owns the connection or is busy with it, it is in no queue, and
nobody is about to put it into one. -/
structure Conn.Lost (t : Conn) : Prop where
  pending : t.c.pd.r = true
  notBusy : t.c.busy = false
  free : t.c.pd.own = false
  alive : t.c.pd.bad = false
  shared : t.wq = 0 ∧ t.gq = 0
  loc : ∀ i, (t.workers i).localq = false
  workers : ∀ i, (t.workers i).pc.away = true
  loop : t.loop = .wait
  main : t.main ≠ .chkR ∧ t.main ≠ .sendGq

/-- The event loop has seen an event and will look at `own`, or will enqueue the descriptor. -/
def LoopPc.looking : LoopPc → Bool
  | .setW _ | .chkOwn | .enq => true
  | _ => false

/-- The worker will try to own the descriptor, or will look for input once more. -/
def WorkerPc.looking : WorkerPc → Bool
  | .own | .reR true _ | .reOwn => true
  | _ => false

/-- The `on_poll` of the worker returned `reading == false` and it is about to clear `own`. -/
def WorkerPc.leaving : WorkerPc → Bool
  | .disown false _ => true
  | _ => false

/-- The descriptor is in a shared queue, or the event loop or `mainproc` is about to put it there
unless it is owned. -/
def Shared.Attended (s : Shared) : Prop :=
  0 < s.wq ∨ 0 < s.gq ∨ s.loop.looking = true ∨ s.main = .chkR ∨ s.main = .sendGq

/-- A worker whose `on_poll` returned `reading == false` gives the descriptor up only if there is
no pending input, or the connection is busy or closed, or someone else will look at it. -/
def Conn.LeavesNoInput (t : Conn) : Act → Prop
  | .worker i _ =>
    (t.workers i).pc.leaving = true → t.c.pd.bad = true ∨ t.c.pd.r = false ∨ t.c.busy = true ∨
      t.Attended ∨ ∃ j, j ≠ i ∧ (t.workers j).pc.looking = true
  | _ => True

/-- There is no pending input, or someone other than the workers will take care of it. -/
def Shared.Watched (s : Shared) : Prop :=
  s.c.pd.bad = true ∨ s.c.pd.r = false ∨ s.c.busy = true ∨ s.c.pd.own = true ∨ s.Attended

def Conn.Watched (t : Conn) : Prop := t.toShared.Watched ∨ ∃ i, (t.workers i).pc.looking = true

theorem Conn.Watched.not_lost (h : t.Watched) : ¬ t.Lost := by
  intro hl
  rcases h with h | ⟨i, hi⟩
  · simp [Shared.Watched, Shared.Attended, hl.alive, hl.pending, hl.notBusy, hl.free,
      hl.shared, hl.loop, hl.main, LoopPc.looking] at h
  · have haway := hl.workers i
    cases hpc : (t.workers i).pc <;> simp_all [WorkerPc.looking, WorkerPc.away]

theorem Shared.Watched.mainproc (h : s.Watched) (hs : s.mainproc a = some s') : s'.Watched := by
  cases hm : s.main <;> simp only [Shared.mainproc, hm, Option.some.injEq, reduceCtorEq] at hs
  all_goals
    simp only [Watched, Attended, hm, reduceCtorEq, or_false] at h ⊢
    grind [select.eq_def, flushWbuf.eq_def, flushed, Netconn.close_pd_bad, Netconn.close_own,
      Netconn.close.eq_def, loginDone.eq_def, handleDone.eq_def, mainClosing.eq_def]

theorem Shared.Watched.serverEventloop (h : s.Watched) (hs : s.serverEventloop a = some s') :
    s'.Watched := by
  cases hl : s.loop <;> simp only [Shared.serverEventloop, hl, Option.some.injEq] at hs
  all_goals
    simp only [Watched, Attended, hl, LoopPc.looking] at h ⊢
    grind [LoopPc.looking]

theorem Shared.popWq_spec (hs : s.popWq home w = some (s', w')) : w'.pc = .own := by
  simp only [popWq, Option.ite_none_right_eq_some, Option.some.injEq] at hs
  obtain ⟨-, hs⟩ := hs
  cases hs
  rfl

theorem Shared.pollQueue_spec (hs : s.pollQueue home w a = some (s', w')) :
    s = s' ∨ w'.pc = .own := by
  simp only [pollQueue] at hs
  split at hs
  · exact .inr (popWq_spec hs)
  · split at hs <;> cases hs
    exact .inl rfl

theorem Shared.blockQueues_spec (hs : s.blockQueues home w a = some (s', w')) :
    s = s' ∨ w'.pc = .own := by
  cases a with
  | popWq => exact .inr (popWq_spec hs)
  | popGq =>
    simp only [blockQueues, Option.ite_none_right_eq_some, Option.some.injEq] at hs
    obtain ⟨-, hs⟩ := hs
    cases hs
    exact .inr rfl
  | other =>
    cases hs
    exact .inl rfl
  | step | read => cases hs

theorem Shared.Watched.workerProc (h : s.Watched ∨ w.pc.looking = true)
    (hown : w.pc.owns = true → s.c.pd.own = true)
    (hok : w.pc.leaving = true →
      s.c.pd.bad = true ∨ s.c.pd.r = false ∨ s.c.busy = true ∨ s.Attended)
    (hs : s.workerProc home w a = some (s', w')) : s'.Watched ∨ w'.pc.looking = true := by
  by_cases hown' : s'.c.pd.own = true
  · exact .inl (.inr (.inr (.inr (.inl hown'))))
  have hkept : w.pc.owns = true → ∃ reading writing, w.pc = .disown reading writing := by
    intro ho
    cases hpc : w.pc
    case disown reading writing => exact ⟨reading, writing, rfl⟩
    all_goals
      exfalso
      apply hown'
      rw [Shared.own_kept ho (by simp [hpc]) hs]
      exact hown ho
  cases hpc : w.pc <;> simp only [Shared.workerProc, hpc, Option.some.injEq, Prod.mk.injEq] at hs
  case disown reading writing =>
    obtain ⟨rfl, rfl⟩ := hs
    cases reading with
    | true => exact .inr rfl
    | false =>
      left
      rcases hok (by rw [hpc]; rfl) with hb | hr | hbusy | ha
      · exact .inl hb
      · exact .inr (.inl hr)
      · exact .inr (.inr (.inl hbusy))
      · exact .inr (.inr (.inr (.inr ha)))
  case reR reading writing =>
    obtain ⟨rfl, rfl⟩ := hs
    cases reading with
    | false => exact .inl (h.resolve_right (by simp [hpc, WorkerPc.looking]))
    | true =>
      cases hr : s.c.pd.r with
      | true => exact .inr (by simp [Worker.goto, WorkerPc.looking])
      | false => exact .inl (.inr (.inl hr))
  case poll =>
    have hs' := pollQueue_spec hs
    rcases hs' with rfl | hw
    · exact .inl (h.resolve_right (by simp [hpc, WorkerPc.looking]))
    · exact .inr (by simp [hw, WorkerPc.looking])
  case block =>
    rcases blockQueues_spec hs with rfl | hw
    · exact .inl (h.resolve_right (by simp [hpc, WorkerPc.looking]))
    · exact .inr (by simp [hw, WorkerPc.looking])
  case loc =>
    have hs' : s = s' := by
      simp only [pollLocal] at hs
      split at hs
      · exact (Prod.mk.inj hs).1
      · split at hs <;> exact (Prod.mk.inj hs).1
    exact .inl (hs' ▸ h.resolve_right (by simp [hpc, WorkerPc.looking]))
  case reW =>
    obtain ⟨rfl, rfl⟩ := hs
    exact .inl (h.resolve_right (by simp [hpc, WorkerPc.looking]))
  case own | reOwn =>
    exfalso
    split at hs
    · cases hs
      exact hown' ‹_›
    · cases hs
      exact hown' rfl
  all_goals simp [hpc, WorkerPc.owns] at hkept

theorem Conn.Watched.step (h : t.Watched) (hx : t.Exclusive) (hok : t.LeavesNoInput a)
    (hs : t.step n home a = some t') : t'.Watched := by
  cases Conn.step_moves hs with
  | @worker i _ _ _ _ hw =>
    by_cases hother : ∃ j, j ≠ i ∧ (t.workers j).pc.looking = true
    · obtain ⟨j, hj, hlook⟩ := hother
      exact .inr ⟨j, by simpa [Function.update_of_ne hj] using hlook⟩
    · have hmine : t.toShared.Watched ∨ (t.workers i).pc.looking = true := by
        refine h.imp_right fun ⟨j, hj⟩ => ?_
        by_cases he : j = i
        · exact he ▸ hj
        · exact absurd ⟨j, he, hj⟩ hother
      have hleave : (t.workers i).pc.leaving = true → t.c.pd.bad = true ∨ t.c.pd.r = false ∨
          t.c.busy = true ∨ t.Attended := by
        intro hl
        rcases hok hl with hb | hr | hbusy | ha | hj
        · exact .inl hb
        · exact .inr (.inl hr)
        · exact .inr (.inr (.inl hbusy))
        · exact .inr (.inr (.inr ha))
        · exact absurd hj hother
      rcases Shared.Watched.workerProc hmine (fun ho =>
        hx.owned i (.inl ho)) hleave hw with h | h
      · exact .inl h
      · exact .inr ⟨i, by simpa using h⟩
  | main hm => exact h.imp_left fun h => h.mainproc hm
  | loop hl => exact h.imp_left fun h => h.serverEventloop hl
  | post => exact h

/-- Pending input is never forgotten in a run in which no worker leaves input behind. -/
theorem readiness_kept (h : (connMachine n home).ReachIf Conn.LeavesNoInput t) : ¬ t.Lost := by
  have hinv : t.Exclusive ∧ t.Watched := by
    refine h.invariant (I := fun t => t.Exclusive ∧ t.Watched) ?_ ?_
    · rintro s rfl
      exact ⟨.new, .inl (.inr (.inl rfl))⟩
    · rintro s a u ⟨hx, hw⟩ hok hs
      exact ⟨hx.step hs, hw.step hx hok hs⟩
  exact hinv.2.not_lost

def steps (k : Nat) : List Act := List.replicate k (.worker 0 .step)

def notice (inp : Bool) : List Act :=
  .loop (.epoll ⟨inp, !inp, false, false, false⟩) :: List.replicate 4 (.loop .step)

/-- The input is there when the worker looks for it, and the whole packet can be read. -/
def earlyInput : List Act :=
  notice true ++ [.loop (.room true), .worker 0 .popWq] ++ steps 6 ++
    [.worker 0 (.read (.data (List.replicate 12 0)))] ++ steps 12

/-- The worker gives the descriptor up with the connection busy. -/
def Conn.leavesBusy (t : Conn) : Act → Bool
  | .worker i _ => !(t.workers i).pc.leaving || t.c.busy
  | _ => true

theorem Conn.leavesBusy_ok (h : t.leavesBusy a = true) : t.LeavesNoInput a := by
  cases a with
  | worker i a =>
    intro hl
    simp only [leavesBusy, hl, Bool.not_true, Bool.false_or] at h
    exact .inr (.inr (.inl h))
  | main | loop | post => trivial

theorem readiness_kept_early :
    ∃ t, (connMachine 1 0).ReachIf Conn.LeavesNoInput t ∧ t.main = .login ∧ ¬ t.Lost := by
  have hrun : ((connMachine 1 0).execIf (fun t a => t.leavesBusy a = true) .new
      earlyInput).map (·.main) = some .login := rfl
  obtain ⟨t, ht, hmain⟩ := Option.map_eq_some_iff.1 hrun
  have hreach : (connMachine 1 0).ReachIf Conn.LeavesNoInput t :=
    ⟨_, _, rfl, (Machine.RunIf.of_execIf ht).mono fun _ _ => Conn.leavesBusy_ok⟩
  exact ⟨t, hreach, hmain, readiness_kept hreach⟩

/-- The socket is writable at first, and input arrives after the worker has looked for it. -/
def lateInput : List Act :=
  notice false ++ [.loop (.room true), .worker 0 .popWq] ++ steps 5 ++ notice true ++ steps 9

/-- What is left when nobody looks after the input any more. -/
def forgotten : Shared :=
  { Conn.new with c.pd.r := true, c.wpending := false, c.wavail := true }

theorem exec_lateInput :
    ((connMachine 1 0).exec .new lateInput).map (fun t => (t.toShared, t.workers 0)) =
      some (forgotten, ⟨.poll, false⟩) := rfl

/-- A worker that has seen no input gives the descriptor up without a second look. -/
theorem readiness_lost : ∃ t, (connMachine 1 0).Reach t ∧ t.Lost := by
  obtain ⟨t, ht, heq⟩ := Option.map_eq_some_iff.1 exec_lateInput
  simp only [Prod.mk.injEq] at heq
  obtain ⟨hs, hw⟩ := heq
  have hworkers (i) : t.workers i = ⟨.poll, false⟩ := by
    cases i with
    | zero => exact hw
    | succ i => exact Conn.run_workers (by omega) (.of_exec ht)
  refine ⟨t, .of_exec rfl ht, ?_⟩
  constructor <;> simp [hs, hworkers, forgotten, Conn.new, newNetconn, WorkerPc.away]

end Misc.Yagw
