import Misc.Yagw.Conn

namespace Misc.Yagw
open Misc.Lib
set_option autoImplicit true

variable {s s' : Shared} {w w' : Worker} {t t' : Conn}

/-- The worker is between a successful exchange of `own` and the store that undoes it. -/
def WorkerPc.owns : WorkerPc → Bool
  | .poll | .loc | .block | .own | .reR .. | .reW .. | .reOwn => false
  | _ => true

/-- The worker owns the descriptor, in its hands or in its local queue. -/
def Worker.Holds (w : Worker) : Prop := w.pc.owns = true ∨ w.localq = true

@[simp] theorem Netconn.close_own (c : Netconn) (pc : ClosePc) :
    (c.close pc).1.pd.own = c.pd.own := by
  cases pc with
  | cas => simp only [close]; split <;> rfl
  | free | down => rfl

@[simp] theorem Netconn.close_pr (c : Netconn) (pc : ClosePc) : (c.close pc).1.pr = c.pr ∧
    (c.close pc).1.busy = c.busy ∧ (c.close pc).1.ravail = c.ravail ∧
    (c.close pc).1.gStart = c.gStart := by
  cases pc with
  | cas => simp only [close]; split <;> simp
  | free | down => simp [close]

theorem Netconn.close_pd_bad (c : Netconn) (pc : ClosePc) (h : c.pd.bad = true) :
    (c.close pc).1.pd.bad = true := by
  cases pc with
  | cas => simp only [close]; split <;> exact h
  | free => rfl
  | down => exact h

theorem Shared.readfrom_spec (h : s.readfrom reading a k = some (s', pc)) :
    ∃ pr, s' = { s with c.pr := pr } ∧
      (pc = .read reading ∨ pc = .rdSet ∨ pc = .rdChk true ∨ pc = .close reading .cas) := by
  cases k with
  | none =>
    simp only [readfrom, Option.some.injEq, Prod.mk.injEq] at h
    refine ⟨s.c.pr, h.1.symm, ?_⟩
    rw [← h.2]
    split <;> simp
  | some k =>
    cases a with
    | step | popWq | popGq | other => cases h
    | read res =>
      simp only [readfrom, Option.ite_none_right_eq_some, Option.some.injEq] at h
      obtain ⟨-, h⟩ := h
      generalize s.c.pr.readStep res = o at h
      obtain ⟨pr, out⟩ := o
      cases out with
      | more | fail =>
        cases h
        exact ⟨pr, rfl, by simp⟩
      | ret ready =>
        cases h
        refine ⟨pr, rfl, ?_⟩
        split <;> simp

theorem Shared.mainproc_own (h : s.mainproc a = some s') : s'.c.pd.own = s.c.pd.own := by
  cases hm : s.main <;> simp only [mainproc, hm, reduceCtorEq, Option.some.injEq] at h
  all_goals grind [select.eq_def, flushWbuf.eq_def, flushed, Netconn.close_own, loginDone.eq_def,
    handleDone.eq_def, mainClosing.eq_def]

theorem Shared.serverEventloop_spec (h : s.serverEventloop a = some s') :
    (∃ r w, s'.c = { s.c with pd := { s.c.pd with r, w } }) ∧
      s'.main = s.main ∧ s'.ctx = s.ctx := by
  cases hl : s.loop <;> simp only [serverEventloop, hl, Option.some.injEq] at h
  case wait | enq => split at h <;> cases h <;> exact ⟨⟨_, _, rfl⟩, rfl, rfl⟩
  all_goals
    subst h
    exact ⟨⟨_, _, rfl⟩, rfl, rfl⟩

/-- A worker acquires the descriptor only when nobody owns it, and only its owner releases it. -/
theorem Shared.workerProc_own (h : s.workerProc home w a = some (s', w')) :
    (s'.c.pd.own = s.c.pd.own ∧ (w'.Holds → w.Holds) ∧
      (w'.pc.owns = true → w'.localq = true → w.pc.owns = true ∧ w.localq = true)) ∨
    (s.c.pd.own = false ∧ s'.c.pd.own = true ∧
      (w'.pc.owns = true → w'.localq = true → w.localq = true)) ∨
    (w.pc.owns = true ∧ s'.c.pd.own = false ∧ w'.pc.owns = false ∧ w'.localq = w.localq) := by
  cases hpc : w.pc <;> simp only [workerProc, hpc, Option.some.injEq, Prod.mk.injEq] at h
  case read reading =>
    obtain ⟨⟨s₁, pc⟩, hr, h⟩ := Option.map_eq_some_iff.1 h
    obtain ⟨pr, rfl, hp⟩ := readfrom_spec hr
    cases h
    rcases hp with rfl | rfl | rfl | rfl <;> simp [Worker.goto, Worker.Holds, WorkerPc.owns, hpc]
  all_goals
    simp only [Worker.Holds, hpc, WorkerPc.owns]
    grind [Worker.goto, pollQueue, pollLocal, popWq, blockQueues.eq_def,
      pollClosing.eq_def, WorkerPc.owns, Netconn.close_own]

/-- The owner keeps the descriptor until it stores zero in `own`. -/
theorem Shared.own_kept (ho : w.pc.owns = true) (hpc : ∀ r r', w.pc ≠ .disown r r')
    (hs : s.workerProc home w a = some (s', w')) : s'.c.pd.own = s.c.pd.own := by
  cases hp : w.pc <;> simp only [workerProc, hp, Option.some.injEq, Prod.mk.injEq] at hs
  case read reading =>
    obtain ⟨⟨s₁, pc⟩, hr, hs⟩ := Option.map_eq_some_iff.1 hs
    obtain ⟨pr, rfl, -⟩ := readfrom_spec hr
    cases hs
    rfl
  case start => split at hs <;> cases hs <;> rfl
  case disown reading writing => exact absurd hp (hpc reading writing)
  case close reading pc =>
    obtain ⟨rfl, -⟩ := hs
    have hc := s.c.close_own pc
    generalize s.c.close pc = o at hc
    obtain ⟨c, _ | pc'⟩ := o <;> exact hc
  case poll | loc | block | own | reR | reW | reOwn => simp [hp, WorkerPc.owns] at ho
  all_goals
    obtain ⟨rfl, -⟩ := hs
    rfl

/-- At most one worker holds the descriptor, and `own` is set as long as one does. -/
structure Conn.Exclusive (t : Conn) : Prop where
  owned : ∀ i, (t.workers i).Holds → t.c.pd.own = true
  unique : ∀ i j, (t.workers i).Holds → (t.workers j).Holds → i = j
  single : ∀ i, (t.workers i).pc.owns = true → (t.workers i).localq = false

theorem Conn.Exclusive.new : Conn.new.Exclusive := by
  constructor <;> simp [Conn.new, Worker.Holds, WorkerPc.owns]

theorem Conn.Exclusive.worker (h : t.Exclusive)
    (hs : t.workerProc home (t.workers i) a = some (s', w')) :
    Exclusive ⟨s', Function.update t.workers i w'⟩ := by
  have hother {j} (hj : j ≠ i) : Function.update t.workers i w' j = t.workers j :=
    Function.update_of_ne hj ..
  have hself : Function.update t.workers i w' i = w' := Function.update_self ..
  rcases Shared.workerProc_own hs with ⟨hown, hkeep, hsing⟩ | ⟨hfree, hown, hsing⟩ |
    ⟨hmine, hown, hpc, hlq⟩
  · have hold {j} (hj : (Function.update t.workers i w' j).Holds) : (t.workers j).Holds := by
      by_cases he : j = i
      · subst he; exact hkeep (hself ▸ hj)
      · exact hother he ▸ hj
    refine ⟨fun j hj => hown.trans (h.owned j (hold hj)), fun j k hj hk => h.unique j k (hold hj)
      (hold hk), fun j hj => ?_⟩
    dsimp only at hj ⊢
    by_cases he : j = i
    · subst he
      rw [hself] at hj ⊢
      apply Bool.eq_false_iff.2
      intro hl
      have hbad := hsing hj hl
      exact absurd hbad.2 (by rw [h.single j hbad.1]; simp)
    · rw [hother he] at hj ⊢
      exact h.single j hj
  · -- Nobody held the descriptor, so the acquirer is the only holder.
    have hnone (j) : ¬ (t.workers j).Holds := fun hj => by
      rw [h.owned j hj] at hfree; cases hfree
    have honly {j} (hj : (Function.update t.workers i w' j).Holds) : j = i := by
      by_contra he
      exact hnone j (hother he ▸ hj)
    refine ⟨fun _ _ => hown, fun j k hj hk => (honly hj).trans (honly hk).symm, fun j hj => ?_⟩
    obtain rfl := honly (.inl hj)
    dsimp only at hj ⊢
    rw [hself] at hj ⊢
    exact Bool.eq_false_iff.2 fun hl => hnone j (.inr (hsing hj hl))
  · have hgone {j} : ¬ (Function.update t.workers i w' j).Holds := by
      by_cases he : j = i
      · subst he
        rw [hself, Worker.Holds, hpc, hlq, h.single j hmine]
        simp
      · rw [hother he]
        intro hj
        exact he (h.unique j i hj (.inl hmine))
    exact ⟨fun j hj => absurd hj hgone, fun j k hj => absurd hj hgone,
      fun j hj => absurd (.inl hj) hgone⟩

theorem Conn.Exclusive.shared (h : t.Exclusive) (hown : s'.c.pd.own = t.c.pd.own) :
    Exclusive ⟨s', t.workers⟩ :=
  ⟨fun i hi => hown.trans (h.owned i hi), h.unique, h.single⟩

/-- The steps of a connection: that of a worker, of the connection goroutine, of the event loop,
or a message posted by another client. -/
inductive Conn.Moves (n home : Nat) (t : Conn) : Act → Conn → Prop
  | worker (hi : i < n) (h : t.workerProc (i == home) (t.workers i) a = some (u, v)) :
      Moves n home t (.worker i a) ⟨u, Function.update t.workers i v⟩
  | main (h : t.mainproc a = some u) : Moves n home t (.main a) ⟨u, t.workers⟩
  | loop (h : t.serverEventloop a = some u) : Moves n home t (.loop a) ⟨u, t.workers⟩
  | post (h : t.ctx.deliver = some msgs) (hroom : msgs.length < deliverChanDeep) :
      Moves n home t (.post msg) { t with ctx.deliver := some (msgs ++ [msg]) }

theorem Conn.step_moves (hs : t.step n home a = some t') : t.Moves n home a t' := by
  cases a with
  | worker i a =>
    simp only [Conn.step, Option.ite_none_right_eq_some] at hs
    obtain ⟨hi, hs⟩ := hs
    obtain ⟨⟨s', w'⟩, hw, rfl⟩ := Option.map_eq_some_iff.1 hs
    exact .worker hi hw
  | main a =>
    obtain ⟨s', hm, rfl⟩ := Option.map_eq_some_iff.1 hs
    exact .main hm
  | loop a =>
    obtain ⟨s', hl, rfl⟩ := Option.map_eq_some_iff.1 hs
    exact .loop hl
  | post msg =>
    simp only [Conn.step] at hs
    split at hs
    · next msgs hd =>
      simp only [Option.ite_none_right_eq_some, Option.some.injEq] at hs
      obtain ⟨hroom, rfl⟩ := hs
      exact .post hd hroom
    · cases hs

theorem Conn.Exclusive.step (h : t.Exclusive) (hs : t.step n home a = some t') :
    t'.Exclusive := by
  cases Conn.step_moves hs with
  | worker _ hw => exact h.worker hw
  | main hm => exact h.shared (Shared.mainproc_own hm)
  | loop hl =>
    obtain ⟨⟨r, w, hc⟩, -, -⟩ := Shared.serverEventloop_spec hl
    exact h.shared (by rw [hc])
  | post => exact h.shared rfl

theorem Conn.step_workers (hi : n ≤ i) (hs : t.step n home a = some t') :
    t'.workers i = t.workers i := by
  cases Conn.step_moves hs with
  | worker hj => exact Function.update_of_ne (by omega) ..
  | main | loop | post => rfl

theorem Conn.run_workers (hi : n ≤ i) (h : (connMachine n home).RunIf ok t as t') :
    t'.workers i = t.workers i :=
  h.invariant (I := fun u => u.workers i = t.workers i) rfl
    fun _ _ _ hu _ hs => (Conn.step_workers hi hs).trans hu

end Misc.Yagw
