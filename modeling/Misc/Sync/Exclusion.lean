import Misc.Sync.Notify

namespace Misc.Sync
open Misc.Lib
set_option autoImplicit true

/-- Between `latch.acquire` and `latch.release`. A transmitter that panics does so in there. -/
def TxPc.holds : TxPc → Bool
  | .take | .panicked | .store _ | .release _ => true
  | _ => false

def RxPc.holds : RxPc → Bool
  | .reload _ | .setWaiting _ | .checkWaker _ | .setWaker _ | .release _ => true
  | _ => false

/-- What the transmitter relies on. Its waiting branch has seen the waiting state, which only its
own store ends. -/
def TxPc.Relies (state : NotifyState) : TxPc → Prop
  | .acquire _ | .take | .store _ => state = .waiting
  | .panicked => False
  | _ => True

/-- What the receiver relies on. It has seen the signaled state, which only its own store ends,
or it still holds the latch under which it has seen or stored the waiting state. -/
def RxPc.Relies (state : NotifyState) : RxPc → Prop
  | .setWaiting _ => state ≠ .waiting
  | .checkWaker _ | .setWaker _ => state = .waiting
  | .release ready => ready = true → state = .signaled
  | .consume => state = .signaled
  | _ => True

/-- The waiting state promises a waker, except while its holder is about to put one there or has
just taken it out. -/
def Notify.Armed (s : Notify) : Prop :=
  s.inner.waker ≠ none ∨ (∃ w, s.rx = .checkWaker w ∨ s.rx = .setWaker w) ∨ ∃ w, s.tx = .store w

/-- The invariant of the pair. -/
structure Notify.Guarded (s : Notify) : Prop where
  latch : s.inner.latch = (s.tx.holds || s.rx.holds)
  apart : s.tx.holds = true → s.rx.holds = true → False
  tx : s.tx.Relies s.inner.state
  rx : s.rx.Relies s.inner.state
  armed : s.inner.state = .waiting → s.Armed

variable {s t : Notify}

theorem Notify.Guarded.start : Guarded oneNotify := by
  constructor <;> simp [oneNotify, TxPc.holds, RxPc.holds, TxPc.Relies, RxPc.Relies]

theorem Notify.Guarded.callPulse (h : Guarded s) (hs : s.step .callPulse = some t) :
    Guarded t := by
  simp only [step, Option.ite_none_right_eq_some, Option.some.injEq] at hs
  obtain ⟨hout, rfl⟩ := hs
  obtain ⟨hlatch, -, -, hrx, harmed⟩ := h
  simp only [hout, TxPc.holds, Armed, reduceCtorEq] at hlatch harmed
  exact ⟨hlatch, by simp [TxPc.holds], trivial, hrx, by simpa [Armed] using harmed⟩

theorem Notify.Guarded.callPoll (h : Guarded s) (hs : s.step (.callPoll w) = some t) :
    Guarded t := by
  simp only [step, Option.ite_none_right_eq_some, Option.some.injEq] at hs
  obtain ⟨hout, rfl⟩ := hs
  obtain ⟨hlatch, -, htx, -, harmed⟩ := h
  simp only [hout, RxPc.holds, Armed, reduceCtorEq] at hlatch harmed
  exact ⟨hlatch, by simp [RxPc.holds], htx, trivial, by simpa [Armed] using harmed⟩

theorem Notify.Guarded.pulse (h : Guarded s) (hs : s.step .tx = some t) : Guarded t := by
  obtain ⟨⟨state, latch, waker⟩, tx, rx⟩ := s
  obtain ⟨hlatch, hapart, htx, hrx, harmed⟩ := h
  simp only [Armed] at hlatch hapart htx hrx harmed
  cases tx with
  | out | panicked => simp only [step, OneNotifyTx.pulse, Option.map_none, reduceCtorEq] at hs
  | load | ret =>
    cases state <;>
      simp only [step, OneNotifyTx.pulse, Option.map_some, Option.some.injEq] at hs <;>
      subst hs <;> constructor <;> simp_all [Armed, TxPc.holds, TxPc.Relies]
  | cas =>
    -- Whoever relies on a state that is not idle is not there, as the exchange finds it idle.
    cases state <;>
      simp only [step, OneNotifyTx.pulse, Option.map_some, Option.some.injEq] at hs <;>
      subst hs <;> constructor <;> simp_all [Armed, TxPc.holds, TxPc.Relies]
    cases rx <;> simp_all [RxPc.Relies]
  | acquire pc =>
    simp only [TxPc.holds, Bool.false_or] at hlatch
    cases pc <;> cases latch <;>
      simp only [step, OneNotifyTx.pulse, Latch.acquire, Bool.false_eq_true, ↓reduceIte,
        Option.map_some, Option.some.injEq] at hs <;>
      subst hs <;> constructor <;> simp_all [Armed, TxPc.holds, TxPc.Relies]
  | take =>
    -- The latch keeps the receiver away from the waker, so the waiting state has one.
    have hheld : rx.holds = false := by simpa [TxPc.holds] using hapart
    cases waker with
    | none =>
      obtain h | ⟨w, rfl | rfl⟩ | ⟨w, h⟩ := harmed htx <;> simp_all [RxPc.holds]
    | some w =>
      simp only [step, OneNotifyTx.pulse, Option.map_some, Option.some.injEq] at hs
      subst hs
      constructor <;> simp_all [Armed, TxPc.holds, TxPc.Relies]
  | store w =>
    have hheld : rx.holds = false := by simpa [TxPc.holds] using hapart
    simp only [step, OneNotifyTx.pulse, Option.map_some, Option.some.injEq] at hs
    subst hs
    constructor <;> simp_all [Armed, TxPc.holds, TxPc.Relies]
    cases rx <;> simp_all [RxPc.Relies, RxPc.holds]
  | release w | wake w =>
    simp only [step, OneNotifyTx.pulse, Latch.release, Option.map_some, Option.some.injEq] at hs
    subst hs
    constructor <;> simp_all [Armed, TxPc.holds, TxPc.Relies]

theorem Notify.Guarded.poll (h : Guarded s) (hs : s.step .rx = some t) : Guarded t := by
  obtain ⟨⟨state, latch, waker⟩, tx, rx⟩ := s
  obtain ⟨hlatch, hapart, htx, hrx, harmed⟩ := h
  simp only [Armed] at hlatch hapart htx hrx harmed
  cases rx with
  | out => simp only [step, OneNotifyRx.poll, Option.map_none, reduceCtorEq] at hs
  | load w =>
    cases state <;>
      simp only [step, OneNotifyRx.poll, Option.map_some, Option.some.injEq] at hs <;>
      subst hs <;> constructor <;> simp_all [Armed, RxPc.holds, RxPc.Relies]
  | acquire w pc =>
    simp only [RxPc.holds, Bool.or_false] at hlatch
    cases pc <;> cases latch <;>
      simp only [step, OneNotifyRx.poll, Latch.acquire, Bool.false_eq_true, ↓reduceIte,
        Option.map_some, Option.some.injEq] at hs <;>
      subst hs <;> constructor <;> simp_all [Armed, RxPc.holds, RxPc.Relies]
  | reload w =>
    cases state <;>
      simp only [step, OneNotifyRx.poll, Option.map_some, Option.some.injEq] at hs <;>
      subst hs <;> constructor <;> simp_all [Armed, RxPc.holds, RxPc.Relies]
  | setWaiting w =>
    -- A transmitter that saw the waiting state would have kept it from being idle at the reload.
    simp only [step, OneNotifyRx.poll, Option.map_some, Option.some.injEq] at hs
    subst hs
    constructor <;> simp_all [Armed, RxPc.holds, RxPc.Relies]
    cases tx <;> simp_all [TxPc.Relies]
  | checkWaker w =>
    simp only [step, OneNotifyRx.poll, Option.map_some, Option.some.injEq] at hs
    subst hs
    split <;> constructor <;> simp_all [Armed, RxPc.holds, RxPc.Relies]
  | setWaker w =>
    simp only [step, OneNotifyRx.poll, Option.map_some, Option.some.injEq] at hs
    subst hs
    constructor <;> simp_all [Armed, RxPc.holds, RxPc.Relies]
  | release ready =>
    cases ready <;> simp only [step, OneNotifyRx.poll, Latch.release, Option.map_some,
        Option.some.injEq] at hs <;>
      subst hs <;> constructor <;> simp_all [Armed, RxPc.holds, RxPc.Relies]
  | consume =>
    simp only [step, OneNotifyRx.poll, Option.map_some, Option.some.injEq] at hs
    subst hs
    constructor <;> simp_all [Armed, RxPc.holds, RxPc.Relies]
    cases tx <;> simp_all [TxPc.Relies]
  | ret ready =>
    simp only [step, OneNotifyRx.poll, Option.map_some, Option.some.injEq] at hs
    subst hs
    constructor <;> simp_all [Armed, RxPc.holds, RxPc.Relies]

theorem Notify.Guarded.step (h : Guarded s) (hs : s.step a = some t) : Guarded t := by
  cases a with
  | callPulse => exact h.callPulse hs
  | tx => exact h.pulse hs
  | callPoll w => exact h.callPoll hs
  | rx => exact h.poll hs

theorem Notify.Guarded.of_reach (h : notifyMachine.Reach s) : Guarded s :=
  h.invariant (fun _ hs => hs ▸ .start) fun _ _ _ hI _ hs => hI.step hs

/-- In every reachable state at most one end holds the latch, and `pulse` has not panicked. -/
theorem waker_present (h : notifyMachine.Reach s) :
    ¬ (s.tx.holds = true ∧ s.rx.holds = true) ∧ s.tx ≠ .panicked := by
  have hg := Notify.Guarded.of_reach h
  refine ⟨fun ⟨ht, hr⟩ => hg.apart ht hr, fun hp => ?_⟩
  simpa [hp, TxPc.Relies] using hg.tx

/-- The transmitter is about to take the waker of a receiver that went to sleep. -/
def takingWaker : List NotifyAct :=
  .callPoll 0 :: List.replicate 8 .rx ++ .callPulse :: List.replicate 3 .tx

theorem waker_present_taking :
    notifyMachine.exec oneNotify takingWaker =
      some ⟨⟨.waiting, true, some 0⟩, .take, .ret false⟩ ∧
    ¬ ((TxPc.take).holds = true ∧ (RxPc.ret false).holds = true) ∧ TxPc.take ≠ .panicked :=
  ⟨by decide, waker_present (s := ⟨⟨.waiting, true, some 0⟩, .take, .ret false⟩)
    (.of_exec rfl (show notifyMachine.exec oneNotify takingWaker = _ by decide))⟩

end Misc.Sync
