import Misc.Yagw.Ownership

namespace Misc.Yagw
open Misc.Lib
set_option autoImplicit true

variable {s s' : Shared} {w w' : Worker} {t t' : Conn}

theorem Shared.mainproc_started (h : s.mainproc a = some s') :
    s.main ≠ .out ∧ s'.main ≠ .out ∧ s'.c.gStart = s.c.gStart := by
  cases hm : s.main <;> simp only [mainproc, hm, reduceCtorEq, Option.some.injEq] at h
  all_goals grind [select.eq_def, flushWbuf.eq_def, flushed, Netconn.close_pr, loginDone.eq_def,
    handleDone.eq_def, mainClosing.eq_def]

theorem Shared.workerProc_main (h : s.workerProc home w a = some (s', w')) :
    (s'.main = s.main ∧ s'.ctx = s.ctx ∧ s'.c.gStart = s.c.gStart) ∨
    (s.c.gStart = false ∧ s'.main = .login ∧ s'.ctx = newClient ∧ s'.c.gStart = true) := by
  cases hpc : w.pc <;> simp only [workerProc, hpc, Option.some.injEq, Prod.mk.injEq] at h
  case read reading =>
    obtain ⟨⟨s₁, pc⟩, hr, h⟩ := Option.map_eq_some_iff.1 h
    obtain ⟨pr, rfl, -⟩ := readfrom_spec hr
    cases h
    exact .inl ⟨rfl, rfl, rfl⟩
  all_goals grind [pollQueue, pollLocal, popWq, blockQueues.eq_def, pollClosing.eq_def,
    Netconn.close_pr]

/-- What a step does to the state of the connection goroutine. -/
inductive Conn.MainEffect (t t' : Conn) : Act → Prop
  | main (h : t.mainproc a = some t'.toShared) : MainEffect t t' (.main a)
  | start (hg : t.c.gStart = false)
      (h : t'.main = .login ∧ t'.ctx = newClient ∧ t'.c.gStart = true) :
      MainEffect t t' (.worker i a)
  | aside (ha : ∀ m, a ≠ .main m)
      (h : t'.main = t.main ∧ t'.ctx.wbuf = t.ctx.wbuf ∧ t'.c.gStart = t.c.gStart) :
      MainEffect t t' a

theorem Conn.step_main (hs : t.step n home a = some t') : t.MainEffect t' a := by
  cases Conn.step_moves hs with
  | worker _ hw =>
    rcases Shared.workerProc_main hw with ⟨hm, hctx, hg⟩ | ⟨hg, h⟩
    · exact .aside (by simp) ⟨hm, congrArg Client.wbuf hctx, hg⟩
    · exact .start hg h
  | main hm => exact .main hm
  | loop hl =>
    obtain ⟨⟨r, w, hc⟩, hm, hctx⟩ := Shared.serverEventloop_spec hl
    exact .aside (by simp) ⟨hm, congrArg Client.wbuf hctx, by rw [hc]⟩
  | post => exact .aside (by simp) ⟨rfl, rfl, rfl⟩

/-- `g_start` says whether the connection goroutine has been started. -/
def Conn.Started (t : Conn) : Prop := t.c.gStart = false ↔ t.main = .out

theorem Conn.Started.new : Conn.new.Started := by simp [Started, Conn.new, newNetconn]

theorem Conn.Started.step (h : t.Started) (hs : t.step n home a = some t') : t'.Started := by
  cases Conn.step_main hs with
  | main hm =>
    obtain ⟨hout, hout', hg⟩ := Shared.mainproc_started hm
    rw [Started, hg, iff_false_right hout']
    intro hf
    exact hout (h.1 hf)
  | start _ ht => simp [Started, ht.1, ht.2.2]
  | aside _ ht => rwa [Started, ht.1, ht.2.2]

end Misc.Yagw
