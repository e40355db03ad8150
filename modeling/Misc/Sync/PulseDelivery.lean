import Misc.Sync.Notify

namespace Misc.Sync
open Misc.Lib
set_option autoImplicit true

/-- A poll that is the first to start after a completed pulse returns `Ready`, provided that the
receiver has not returned `Ready` since that pulse started. -/
def PulsesArrive (es : List NotifyEvent) : Prop :=
  ∀ pre mid₁ mid₂ mid₃ post ready,
    es = pre ++ .pulseStart :: (mid₁ ++ .pulseEnd :: (mid₂ ++ .pollStart ::
      (mid₃ ++ .pollEnd ready :: post))) →
    .pulseEnd ∉ mid₁ → .pollEnd true ∉ mid₁ → .pollEnd true ∉ mid₂ → .pollStart ∉ mid₂ →
    (∀ b, .pollEnd b ∉ mid₃) → ready = true

/-- The receiver has loaded the idle state under the latch and will store the waiting state. -/
def RxPc.storing : RxPc → Bool
  | .setWaiting _ => true
  | _ => false

/-- The step neither makes `pulse` see the waiting state nor lets its `compare_exchange` succeed
between the load and the store that `poll` makes under the latch. -/
def Notify.Undisturbed (s : Notify) : NotifyAct → Prop
  | .tx => (s.tx = .load ∨ s.tx = .cas → s.inner.state ≠ .waiting) ∧
      (s.tx = .cas → s.inner.state = .idle → s.rx.storing = false)
  | _ => True

instance (s : Notify) : (a : NotifyAct) → Decidable (s.Undisturbed a)
  | .tx => inferInstanceAs (Decidable (_ ∧ _))
  | .callPulse | .callPoll _ | .rx => inferInstanceAs (Decidable True)

/-- What an observer remembers: whether the running pulse started after the last `Ready`, whether
a pulse has completed since, and whether the running poll started after that. -/
structure Watch where
  fresh : Bool
  owed : Bool
  due : Bool
  deriving DecidableEq, Repr

def Watch.next (g : Watch) : NotifyEvent → Watch
  | .pulseStart => { g with fresh := true }
  | .pulseEnd => { g with owed := g.owed || g.fresh, fresh := false }
  | .pollStart => { g with due := g.owed }
  | .pollEnd true => ⟨false, false, false⟩
  | .pollEnd false => { g with due := false }

def Watch.Allows (g : Watch) (e : NotifyEvent) : Prop :=
  ∀ ready, e = .pollEnd ready → g.due = true → ready = true

variable {g : Watch} {es : List NotifyEvent} {s t : Notify}

theorem Watch.fresh_foldl (hg : g.fresh = true) (h₁ : .pulseEnd ∉ es) (h₂ : .pollEnd true ∉ es) :
    (es.foldl Watch.next g).fresh = true := by
  induction es generalizing g with
  | nil => exact hg
  | cons e es ih =>
    simp only [List.mem_cons, not_or] at h₁ h₂
    refine ih ?_ h₁.2 h₂.2
    match e with
    | .pulseStart => rfl
    | .pulseEnd => exact absurd rfl h₁.1
    | .pollStart => exact hg
    | .pollEnd true => exact absurd rfl h₂.1
    | .pollEnd false => exact hg

theorem Watch.owed_foldl (hg : g.owed = true) (h : .pollEnd true ∉ es) :
    (es.foldl Watch.next g).owed = true := by
  induction es generalizing g with
  | nil => exact hg
  | cons e es ih =>
    simp only [List.mem_cons, not_or] at h
    refine ih ?_ h.2
    match e with
    | .pulseStart => exact hg
    | .pulseEnd => simp only [next, hg, Bool.true_or]
    | .pollStart => exact hg
    | .pollEnd true => exact absurd rfl h.1
    | .pollEnd false => exact hg

theorem Watch.due_foldl (ho : g.owed = true) (hd : g.due = true)
    (h : ∀ b, .pollEnd b ∉ es) : (es.foldl Watch.next g).due = true := by
  induction es generalizing g with
  | nil => exact hd
  | cons e es ih =>
    simp only [List.mem_cons, not_or] at h
    match e with
    | .pulseStart => exact ih ho hd fun b => (h b).2
    | .pulseEnd => exact ih (by simp only [next, ho, Bool.true_or]) hd fun b => (h b).2
    | .pollStart => exact ih ho ho fun b => (h b).2
    | .pollEnd b => exact absurd rfl (h b).1

/-- If the observer finds nothing wrong at any event then no pulse was lost. -/
theorem pulsesArrive_of_watch
    (h : ∀ pre e post, es = pre ++ e :: post → (pre.foldl Watch.next g).Allows e) :
    PulsesArrive es := by
  intro pre mid₁ mid₂ mid₃ post ready he h₁ h₂ h₃ _ h₅
  let cut := pre ++ .pulseStart :: (mid₁ ++ .pulseEnd :: (mid₂ ++ .pollStart :: mid₃))
  have hcut : es = cut ++ .pollEnd ready :: post := by
    simp only [he, cut, List.append_assoc, List.cons_append]
  apply h cut _ post hcut ready rfl
  simp only [cut, List.foldl_append, List.foldl_cons]
  have hfresh := Watch.fresh_foldl (g := (pre.foldl Watch.next g).next .pulseStart) rfl h₁ h₂
  have howed₁ : ((mid₁.foldl Watch.next ((pre.foldl Watch.next g).next .pulseStart)).next
      .pulseEnd).owed = true := by
    simp only [Watch.next] at hfresh ⊢
    simp only [hfresh, Bool.or_true]
  have howed := Watch.owed_foldl howed₁ h₃
  exact Watch.due_foldl howed howed h₅

/-- A notification that the receiver has not taken yet, or has just taken. -/
def Notify.Arriving (s : Notify) : Prop :=
  s.inner.state = .signaled ∨ s.rx = .consume ∨ s.rx = .ret true

/-- The relation between the pair and its observer, as long as no pulse is disturbed. -/
structure Notify.Tracks (s : Notify) (g : Watch) : Prop where
  direct : s.tx = .out ∨ s.tx = .load ∨ s.tx = .cas ∨ s.tx = .ret
  quiet : s.rx.storing = true → s.inner.state = .idle
  sent : s.tx = .ret → g.fresh = true → s.Arriving
  owed : g.owed = true → s.Arriving
  due : g.due = true →
    (s.inner.state = .signaled ∧ ∃ w, s.rx = .load w) ∨ s.rx = .consume ∨ s.rx = .ret true

theorem Notify.Tracks.start : Tracks oneNotify ⟨false, false, false⟩ := by
  constructor <;> simp [oneNotify, RxPc.storing]

theorem Notify.Tracks.callPulse (h : Tracks s g) (hs : s.step .callPulse = some t) :
    Tracks t ((s.event .callPulse).toList.foldl Watch.next g) := by
  simp only [step, Option.ite_none_right_eq_some, Option.some.injEq] at hs
  obtain ⟨-, rfl⟩ := hs
  exact ⟨.inr (.inl rfl), h.quiet, by simp, h.owed, h.due⟩

theorem Notify.Tracks.pulse (h : Tracks s g) (hok : s.Undisturbed .tx)
    (hs : s.step .tx = some t) : Tracks t ((s.event .tx).toList.foldl Watch.next g) := by
  obtain ⟨⟨state, latch, waker⟩, tx, rx⟩ := s
  obtain ⟨hdirect, hquiet, hsent, howed, hdue⟩ := h
  obtain ⟨hwait, hcas⟩ := hok
  simp only [Arriving] at hsent howed hdue
  simp only at hdirect hquiet hwait hcas
  rcases hdirect with rfl | rfl | rfl | rfl
  · simp only [step, OneNotifyTx.pulse, Option.map_none, reduceCtorEq] at hs
  -- The load and the exchange leave the waiting branch alone, so both go towards `ret`.
  · cases state <;>
      simp only [step, OneNotifyTx.pulse, Option.map_some, Option.some.injEq] at hs <;>
      subst hs <;> constructor <;> simp_all [event, Arriving, RxPc.storing]
  · cases state <;>
      simp only [step, OneNotifyTx.pulse, Option.map_some, Option.some.injEq] at hs <;>
      subst hs <;> constructor <;> simp_all [event, Arriving, RxPc.storing]
  · simp only [step, OneNotifyTx.pulse, Option.map_some, Option.some.injEq] at hs
    subst hs
    refine ⟨.inl rfl, hquiet, by simp, ?_, hdue⟩
    intro ho
    simp only [event, ↓reduceIte, Option.toList_some, List.foldl_cons,
      List.foldl_nil, Watch.next, Bool.or_eq_true] at ho
    exact ho.elim howed (hsent rfl)

theorem Notify.Tracks.callPoll (h : Tracks s g) (hs : s.step (.callPoll w) = some t) :
    Tracks t ((s.event (.callPoll w)).toList.foldl Watch.next g) := by
  simp only [step, Option.ite_none_right_eq_some, Option.some.injEq] at hs
  obtain ⟨hout, rfl⟩ := hs
  have harr : s.Arriving → s.inner.state = .signaled := by simp [Arriving, hout]
  refine ⟨h.direct, by simp [RxPc.storing], ?_, ?_, ?_⟩
  · intro ht hf
    exact .inl (harr (h.sent ht hf))
  · intro ho
    exact .inl (harr (h.owed ho))
  · intro ho
    exact .inl ⟨harr (h.owed ho), w, rfl⟩

theorem Notify.Tracks.poll (h : Tracks s g) (hs : s.step .rx = some t) :
    Tracks t ((s.event .rx).toList.foldl Watch.next g) := by
  obtain ⟨⟨state, latch, waker⟩, tx, rx⟩ := s
  obtain ⟨hdirect, hquiet, hsent, howed, hdue⟩ := h
  simp only [Arriving] at hsent howed hdue
  simp only at hdirect hquiet
  cases rx with
  | out => simp only [step, OneNotifyRx.poll, Option.map_none, reduceCtorEq] at hs
  | load w =>
    cases state <;>
      simp only [step, OneNotifyRx.poll, Option.map_some, Option.some.injEq] at hs <;>
      subst hs <;> constructor <;> simp_all [event, Arriving, RxPc.storing]
  | acquire w pc =>
    cases pc <;> cases latch <;>
      simp only [step, OneNotifyRx.poll, Latch.acquire, Bool.false_eq_true, ↓reduceIte,
        Option.map_some, Option.some.injEq] at hs <;>
      subst hs <;> constructor <;> simp_all [event, Arriving, RxPc.storing]
  | reload w =>
    cases state <;>
      simp only [step, OneNotifyRx.poll, Option.map_some, Option.some.injEq] at hs <;>
      subst hs <;> constructor <;> simp_all [event, Arriving, RxPc.storing]
  | setWaiting w =>
    -- The state is still idle here, so the plain store overwrites no signal.
    simp only [step, OneNotifyRx.poll, Option.map_some, Option.some.injEq] at hs
    subst hs
    constructor <;> simp_all [event, Arriving, RxPc.storing]
  | checkWaker w =>
    simp only [step, OneNotifyRx.poll, Option.map_some, Option.some.injEq] at hs
    subst hs
    split <;> constructor <;> simp_all [event, Arriving, RxPc.storing]
  | setWaker w =>
    simp only [step, OneNotifyRx.poll, Option.map_some, Option.some.injEq] at hs
    subst hs
    constructor <;> simp_all [event, Arriving, RxPc.storing]
  | release ready =>
    cases ready <;>
      simp only [step, OneNotifyRx.poll, Option.map_some, Option.some.injEq] at hs <;>
      subst hs <;> constructor <;> simp_all [event, Arriving, RxPc.storing]
  | consume =>
    simp only [step, OneNotifyRx.poll, Option.map_some, Option.some.injEq] at hs
    subst hs
    constructor <;> simp_all [event, Arriving, RxPc.storing]
  | ret ready =>
    cases ready <;>
      simp only [step, OneNotifyRx.poll, Option.map_some, Option.some.injEq] at hs <;>
      subst hs <;> constructor <;> simp_all [event, Arriving, RxPc.storing, Watch.next]

theorem Notify.Tracks.step (h : Tracks s g) (hok : s.Undisturbed a) (hs : s.step a = some t) :
    Tracks t ((s.event a).toList.foldl Watch.next g) := by
  cases a with
  | callPulse => exact h.callPulse hs
  | tx => exact h.pulse hok hs
  | callPoll w => exact h.callPoll hs
  | rx => exact h.poll hs

theorem Notify.Tracks.allows (h : Tracks s g) (he : s.event a = some e) : g.Allows e := by
  intro ready hr hd
  subst hr
  cases a with
  | callPulse => simp [event] at he
  | callPoll => simp [event] at he
  | tx => simp [event] at he
  | rx =>
    rcases h.due hd with ⟨-, w, hw⟩ | hc | hr
    · simp [event, hw] at he
    · simp [event, hc] at he
    · simp [event, hr] at he
      exact he

/-- As long as `pulse` neither sees the waiting state nor slips in between the load and the store
of `poll`, no notification is lost. -/
theorem pulses_arrive (h : notifyMachine.RunIf Notify.Undisturbed oneNotify as t) :
    PulsesArrive (notifyMachine.observe Notify.event oneNotify as) := by
  apply pulsesArrive_of_watch (g := ⟨false, false, false⟩)
  intro pre e post he
  exact h.monitor (I := Notify.Tracks) .start (fun _ _ _ _ hI hok hs => hI.step hok hs)
    (fun _ _ _ _ hI hev => hI.allows hev) he

def signaledPoll : List NotifyAct :=
  .callPulse :: List.replicate 3 .tx ++ .callPoll 0 :: List.replicate 3 .rx

theorem pulses_arrive_signaled :
    notifyMachine.observe Notify.event oneNotify signaledPoll =
      [.pulseStart, .pulseEnd, .pollStart, .pollEnd true] ∧
    PulsesArrive (notifyMachine.observe Notify.event oneNotify signaledPoll) :=
  ⟨by decide, pulses_arrive (t := oneNotify) (.of_execIf (by decide))⟩

/-- The receiver waits, is woken by a pulse and polls again. -/
def lostPulse : List NotifyAct :=
  .callPoll 0 :: List.replicate 9 .rx ++ .callPulse :: List.replicate 8 .tx ++
    .callPoll 0 :: List.replicate 9 .rx

/-- A pulse that finds the receiver waiting resets the state to idle, and the poll that it woke
goes back to sleep. -/
theorem pulse_lost : ¬ ∀ as t, notifyMachine.Run oneNotify as t →
    PulsesArrive (notifyMachine.observe Notify.event oneNotify as) := by
  intro h
  have hrun : notifyMachine.exec oneNotify lostPulse =
      some ⟨⟨.waiting, false, some 0⟩, .out, .out⟩ := by decide
  have hev : notifyMachine.observe Notify.event oneNotify lostPulse =
      [.pollStart, .pollEnd false, .pulseStart, .pulseEnd, .pollStart, .pollEnd false] := by
        decide
  have hlost := h _ _ (.of_exec hrun)
  rw [hev] at hlost
  have := hlost [.pollStart, .pollEnd false] [] [] [] [] false rfl
  simp at this

end Misc.Sync
