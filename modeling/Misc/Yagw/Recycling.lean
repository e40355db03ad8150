import Misc.Lib.Linked
import Misc.Lib.Machine
import Mathlib

namespace Misc.Yagw.Recycling
open Misc.Lib
set_option autoImplicit true

def RECYCLEPD_LIMIT : Nat := 512

/-- What the release of a descriptor does next. `held` is a descriptor with its connection,
before the exchange of `bad`; `check` has what `push` returned. -/
inductive Release
  | held
  | del
  | push
  | check (toomany : Bool)
  | raise
  | write
  | released
  deriving DecidableEq, Repr

/-- The releasing thread has not yet put the descriptor on the list. -/
def Release.early : Release → Bool
  | held | del | push => true
  | _ => false

/-- What `EpollWait` reports: a descriptor, or `event_fd`. -/
inductive Event
  | pd (p : Nat)
  | event_fd
  deriving DecidableEq, Repr

/-- What `server_eventloop` does next: the wait, the events of a batch that are left and the
list after them, or the store to `recycling`. -/
inductive Loop
  | wait
  | batch (events : List Event)
  | store
  deriving DecidableEq, Repr

/-- The part of `server` that descriptors are released in. `release` and `free_next` are fields
of the descriptors, `event` is that `event_fd` can be read, and `tick` is where `tick_recyclepd`
stands in `raise_recyclepd`. -/
structure Server where
  release : Nat → Option Release
  registered : Nat → Bool
  free_next : Nat → Option Nat
  pd0 : Option Nat
  num : Nat
  pd1 : Option Nat
  recycling : Bool
  event : Bool
  tick : Option Release
  loop : Loop

namespace Server

def next (s : Server) (p : Nat) : Option (Option Nat) := some (s.free_next p)

def goto (s : Server) (p : Nat) (r : Release) : Server :=
  { s with release := Function.update s.release p (some r) }

def push (s : Server) (p : Nat) : Server :=
  { s with
    free_next := Function.update s.free_next p s.pd0
    pd0 := some p
    num := if s.num < RECYCLEPD_LIMIT then s.num + 1 else s.num
    pd1 := if s.num = 0 then some p else s.pd1 }

def toomany (s : Server) : Bool := s.num + 1 = RECYCLEPD_LIMIT

def clear (s : Server) : Server := { s with pd0 := none, num := 0, pd1 := none }

def run (s : Server) (p : Nat) : Release → Option Server
  | .held => some (s.goto p .del)
  | .del => some ({ s with registered := Function.update s.registered p false }.goto p .push)
  | .push => some ((s.push p).goto p (.check s.toomany))
  | .check toomany => some (s.goto p (if toomany && !s.recycling then .raise else .released))
  | .raise =>
    some (if s.recycling then s.goto p .released else { s with recycling := true }.goto p .write)
  | .write => some ({ s with event := true }.goto p .released)
  | .released => none

def runTick (s : Server) : Option Release → Option Server
  | some .raise =>
    some (if s.recycling then { s with tick := none }
    else { s with recycling := true, tick := some .write })
  | some .write => some { s with event := true, tick := none }
  | _ => some { s with tick := some .raise }

/-- The next operation of `server_eventloop` behind `EpollWait`; a descriptor in the batch is
read. -/
def runLoop (s : Server) : Loop → Option Server
  | .wait => none
  | .batch (.pd _ :: l) => some { s with loop := .batch l }
  | .batch (.event_fd :: l) => some { s with event := false, loop := .batch l }
  | .batch [] => some { s.clear with loop := .store }
  | .store => some { s with recycling := false, loop := .wait }

/-- What `EpollWait` may report, each file once. -/
def Ready (s : Server) : Event → Prop
  | .pd p => s.registered p = true
  | .event_fd => s.event = true

instance (s : Server) : DecidablePred s.Ready := fun e => by
  cases e <;> dsimp only [Ready] <;> infer_instance

end Server

inductive Act
  | install (p : Nat)
  | release (p : Nat)
  | tick
  | wait (events : List Event)
  | loop

def Server.step (s : Server) : Act → Option Server
  | .install p =>
    if s.release p = none then
      some ({ s with registered := Function.update s.registered p true }.goto p .held) else none
  | .release p => (s.release p).bind (s.run p)
  | .tick => s.runTick s.tick
  | .wait events =>
    if s.loop = .wait ∧ events.Nodup ∧ ∀ e ∈ events, s.Ready e then
      some { s with loop := .batch events } else none
  | .loop => s.runLoop s.loop

def start : Server :=
  ⟨fun _ => none, fun _ => false, fun _ => none, none, 0, none, false, false, none, .wait⟩

def machine : Machine Server Act where
  init s := s = start
  step := Server.step

/-- A pointer to the descriptor is left that the collector knows: in the hand of its connection
or of the thread that releases it, or on the list. -/
def Server.Kept (s : Server) (p : Nat) : Prop :=
  (∃ r, s.release p = some r ∧ r.early = true) ∨ Reaches s.next s.pd0 p

/-- Someone is going to see to it that the list is cleared. -/
def Server.Awake (s : Server) : Prop :=
  s.event = true ∨ s.tick = some .write ∨ (∃ p, s.release p = some .write) ∨ s.loop ≠ .wait

/-- What holds between two operations, with the descriptors on the list. -/
structure Safe (s : Server) (ps : List Nat) : Prop where
  chain : Linked s.next s.pd0 ps
  late : ∀ p ∈ ps, ∃ r, s.release p = some r ∧ r.early = false
  num : s.num = min ps.length RECYCLEPD_LIMIT
  last : s.pd1 = ps.getLast?
  registered : ∀ p, s.registered p = true → s.release p = some .held ∨ s.release p = some .del
  nodup : ∀ l, s.loop = .batch l → l.Nodup
  event : ∀ l, s.loop = .batch l → .event_fd ∈ l → s.event = true
  batch : ∀ l, s.loop = .batch l → ∀ p, .pd p ∈ l →
    (∃ r, s.release p = some r ∧ r.early = true) ∨ p ∈ ps
  awake : s.recycling = true → s.Awake

section
variable {s t : Server} {ps : List Nat} {p q : Nat} {r r' : Release} {l : List Event}

theorem Safe.start : Safe start [] where
  chain := .nil
  late _ hp := (List.not_mem_nil hp).elim
  num := rfl
  last := rfl
  registered _ hp := (Bool.false_ne_true hp).elim
  nodup _ hl := by cases hl
  event _ hl := by cases hl
  batch _ hl := by cases hl
  awake h := (Bool.false_ne_true h).elim

theorem goto_release (s : Server) (p q : Nat) (r : Release) :
    (s.goto p r).release q = if q = p then some r else s.release q := Function.update_apply ..

theorem Safe.goto (h : Safe s ps) (hp : s.release p = some r) (hearly : r'.early = r.early)
    (hreg : s.registered p = true → r' = .held ∨ r' = .del)
    (hwrite : r ≠ .write ∨ s.event = true) : Safe (s.goto p r') ps where
  chain := h.chain
  late q hq := by
    obtain ⟨r₀, hr₀, hlate⟩ := h.late q hq
    rw [goto_release]
    split_ifs with hqp
    · cases (hqp ▸ hr₀).symm.trans hp
      exact ⟨r', rfl, hearly.trans hlate⟩
    · exact ⟨r₀, hr₀, hlate⟩
  num := h.num
  last := h.last
  registered q hq := by
    rw [goto_release]
    split_ifs with hqp
    · exact (hreg (hqp ▸ hq)).imp (congrArg some) (congrArg some)
    · exact h.registered q hq
  nodup := h.nodup
  event := h.event
  batch l hl q hq := by
    rw [goto_release]
    obtain ⟨r₀, hr₀, hr₀early⟩ | hmem := h.batch l hl q hq
    · split_ifs with hqp
      · cases (hqp ▸ hr₀).symm.trans hp
        exact .inl ⟨r', rfl, hearly.trans hr₀early⟩
      · exact .inl ⟨r₀, hr₀, hr₀early⟩
    · exact .inr hmem
  awake hrec := by
    obtain hevent | htick | ⟨q, hq⟩ | hloop := h.awake hrec
    · exact .inl hevent
    · exact .inr (.inl htick)
    · by_cases hqp : q = p
      · cases (hqp ▸ hq).symm.trans hp
        exact .inl (hwrite.resolve_left (not_not_intro rfl))
      · refine .inr (.inr (.inl ⟨q, ?_⟩))
        rw [goto_release, if_neg hqp]
        exact hq
    · exact .inr (.inr (.inr hloop))

theorem Safe.unregister (h : Safe s ps) (p : Nat) :
    Safe { s with registered := Function.update s.registered p false } ps where
  chain := h.chain
  late := h.late
  num := h.num
  last := h.last
  registered q hq := by
    change Function.update s.registered p false q = true at hq
    rw [Function.update_apply] at hq
    split_ifs at hq
    exact h.registered q hq
  nodup := h.nodup
  event := h.event
  batch := h.batch
  awake := h.awake

theorem Safe.signal (h : Safe s ps) : Safe { s with event := true } ps where
  chain := h.chain
  late := h.late
  num := h.num
  last := h.last
  registered := h.registered
  nodup := h.nodup
  event _ _ _ := rfl
  batch := h.batch
  awake _ := .inl rfl

theorem Safe.recycle (h : Safe s ps) (ha : s.Awake) : Safe { s with recycling := true } ps where
  chain := h.chain
  late := h.late
  num := h.num
  last := h.last
  registered := h.registered
  nodup := h.nodup
  event := h.event
  batch := h.batch
  awake _ := ha

theorem Safe.setTick (h : Safe s ps) {tick : Option Release}
    (ha : s.tick ≠ some .write ∨ s.event = true) : Safe { s with tick := tick } ps where
  chain := h.chain
  late := h.late
  num := h.num
  last := h.last
  registered := h.registered
  nodup := h.nodup
  event := h.event
  batch := h.batch
  awake hrec := by
    obtain hevent | htick | hrest := h.awake hrec
    · exact .inl hevent
    · exact .inl (ha.resolve_left (not_not_intro htick))
    · exact .inr (.inr hrest)

/-- A descriptor that goes onto the list is on no list yet. -/
theorem Safe.push (h : Safe s ps) (hp : s.release p = some .push) (toomany : Bool) :
    Safe ((s.push p).goto p (.check toomany)) (p :: ps) := by
  have hnot : p ∉ ps := fun hmem => by
    obtain ⟨r, hr, hlate⟩ := h.late p hmem
    cases hp.symm.trans hr
    cases hlate
  have hnext : ((s.push p).goto p (.check toomany)).next p = some s.pd0 :=
    congrArg some (Function.update_self ..)
  constructor
  · refine .cons hnext (h.chain.congr fun q hq => congrArg some (Function.update_of_ne ?_ _ _))
    rintro rfl
    exact hnot hq
  · intro q hq
    rw [goto_release]
    split_ifs with hqp
    · exact ⟨.check toomany, rfl, rfl⟩
    · exact h.late q ((List.mem_cons.1 hq).resolve_left hqp)
  · change (if s.num < RECYCLEPD_LIMIT then s.num + 1 else s.num) = _
    have hnum := h.num
    rw [List.length_cons]
    split_ifs <;> omega
  · change (if s.num = 0 then some p else s.pd1) = _
    have hnum := h.num
    rw [h.last]
    cases ps with
    | nil => exact if_pos hnum
    | cons q ps =>
      rw [if_neg]
      · rfl
      · rw [hnum, List.length_cons, RECYCLEPD_LIMIT]
        omega
  · intro q hq
    rw [goto_release]
    split_ifs with hqp
    · obtain hr | hr := h.registered q hq <;> cases (hqp ▸ hr).symm.trans hp
    · exact h.registered q hq
  · exact h.nodup
  · exact h.event
  · intro l hl q hq
    by_cases hqp : q = p
    · exact .inr (hqp ▸ List.mem_cons_self)
    · rw [goto_release, if_neg hqp]
      exact (h.batch l hl q hq).imp_right (List.mem_cons_of_mem p)
  · intro hrec
    obtain hevent | htick | ⟨q, hq⟩ | hloop := h.awake hrec
    · exact .inl hevent
    · exact .inr (.inl htick)
    · refine .inr (.inr (.inl ⟨q, ?_⟩))
      have hqp : q ≠ p := by
        rintro rfl
        cases hp.symm.trans hq
      rw [goto_release, if_neg hqp]
      exact hq
    · exact .inr (.inr (.inr hloop))

theorem Safe.install (h : Safe s ps) (hp : s.release p = none) :
    Safe ({ s with registered := Function.update s.registered p true }.goto p .held) ps where
  chain := h.chain
  late q hq := by
    obtain ⟨r, hr, hlate⟩ := h.late q hq
    rw [goto_release, if_neg]
    · exact ⟨r, hr, hlate⟩
    · rintro rfl
      cases hp.symm.trans hr
  num := h.num
  last := h.last
  registered q hq := by
    rw [goto_release]
    split_ifs with hqp
    · exact .inl rfl
    · exact h.registered q ((Function.update_of_ne hqp true s.registered) ▸ hq)
  nodup := h.nodup
  event := h.event
  batch l hl q hq := by
    refine (h.batch l hl q hq).imp_left fun ⟨r, hr, hearly⟩ => ?_
    rw [goto_release]
    split_ifs
    · exact ⟨.held, rfl, rfl⟩
    · exact ⟨r, hr, hearly⟩
  awake hrec := by
    obtain hevent | htick | ⟨q, hq⟩ | hloop := h.awake hrec
    · exact .inl hevent
    · exact .inr (.inl htick)
    · refine .inr (.inr (.inl ⟨q, ?_⟩))
      rw [goto_release, if_neg]
      · exact hq
      · rintro rfl
        cases hp.symm.trans hq
    · exact .inr (.inr (.inr hloop))

theorem Safe.run (h : Safe s ps) (hp : s.release p = some r) (hs : s.run p r = some t) :
    ∃ ps', Safe t ps' := by
  have hunreg {r' : Release} (hr : r ≠ .held ∧ r ≠ .del) (hreg : s.registered p = true) :
      r' = .held ∨ r' = .del := by
    obtain hp' | hp' := h.registered p hreg <;> cases hp.symm.trans hp'
    · exact absurd rfl hr.1
    · exact absurd rfl hr.2
  cases r with
  | held =>
    cases hs
    exact ⟨ps, h.goto hp rfl (fun _ => .inr rfl) (.inl (by decide))⟩
  | del =>
    cases hs
    refine ⟨ps, (h.unregister p).goto hp rfl (fun hreg => ?_) (.inl (by decide))⟩
    have hreg : Function.update s.registered p false p = true := hreg
    rw [Function.update_self] at hreg
    cases hreg
  | push =>
    cases hs
    exact ⟨p :: ps, h.push hp _⟩
  | check toomany =>
    cases hs
    refine ⟨ps, h.goto hp ?_ (hunreg (by simp)) (.inl (by simp))⟩
    split_ifs <;> rfl
  | raise =>
    cases hs
    split_ifs with hrec
    · exact ⟨ps, h.goto hp rfl (hunreg (by decide)) (.inl (by decide))⟩
    · have hgoto : Safe (s.goto p .write) ps :=
        h.goto hp rfl (hunreg (by decide)) (.inl (by decide))
      exact ⟨ps,
        hgoto.recycle (.inr (.inr (.inl ⟨p, (goto_release s p p .write).trans (if_pos rfl)⟩)))⟩
  | write =>
    cases hs
    exact ⟨ps, h.signal.goto hp rfl (hunreg (by decide)) (.inr rfl)⟩
  | released => cases hs

theorem Safe.runTick (h : Safe s ps) (hs : s.runTick s.tick = some t) : Safe t ps := by
  rw [Server.runTick.eq_def] at hs
  split at hs
  · rename_i htick
    cases hs
    split_ifs with hrec
    · exact h.setTick (.inl (by rw [htick]; decide))
    · have hset : Safe { s with tick := some .write } ps :=
        h.setTick (.inl (by rw [htick]; decide))
      exact hset.recycle (.inr (.inl rfl))
  · cases hs
    exact h.signal.setTick (.inr rfl)
  · rename_i hwrite
    cases hs
    exact h.setTick (.inl hwrite)

theorem Safe.setBatch (h : Safe s ps) (hl : l.Nodup) (hevent : .event_fd ∈ l → s.event = true)
    (hbatch : ∀ p, .pd p ∈ l → (∃ r, s.release p = some r ∧ r.early = true) ∨ p ∈ ps) :
    Safe { s with loop := .batch l } ps where
  chain := h.chain
  late := h.late
  num := h.num
  last := h.last
  registered := h.registered
  nodup _ hl' := by
    cases hl'
    exact hl
  event _ hl' := by
    cases hl'
    exact hevent
  batch _ hl' := by
    cases hl'
    exact hbatch
  awake _ := .inr (.inr (.inr (by simp)))

theorem Safe.wait (h : Safe s ps) (hl : l.Nodup) (hready : ∀ e ∈ l, s.Ready e) :
    Safe { s with loop := .batch l } ps := by
  refine h.setBatch hl (hready _) fun p hp => .inl ?_
  obtain hr | hr := h.registered p (hready _ hp)
  · exact ⟨.held, hr, rfl⟩
  · exact ⟨.del, hr, rfl⟩

theorem Safe.clear (h : Safe s ps) : Safe { s.clear with loop := .store } [] where
  chain := .nil
  late _ hp := (List.not_mem_nil hp).elim
  num := rfl
  last := rfl
  registered := h.registered
  nodup _ hl := by cases hl
  event _ hl := by cases hl
  batch _ hl := by cases hl
  awake _ := .inr (.inr (.inr (by simp)))

theorem Safe.store (h : Safe s ps) : Safe { s with recycling := false, loop := .wait } ps where
  chain := h.chain
  late := h.late
  num := h.num
  last := h.last
  registered := h.registered
  nodup _ hl := by cases hl
  event _ hl := by cases hl
  batch _ hl := by cases hl
  awake hrec := (Bool.false_ne_true hrec).elim

theorem Safe.readEvent (h : Safe s ps) (hl : s.loop = .batch (.event_fd :: l)) :
    Safe { s with event := false, loop := .batch l } ps where
  chain := h.chain
  late := h.late
  num := h.num
  last := h.last
  registered := h.registered
  nodup _ hl' := by
    cases hl'
    exact (List.nodup_cons.1 (h.nodup _ hl)).2
  event _ hl' hmem := by
    cases hl'
    exact absurd hmem (List.nodup_cons.1 (h.nodup _ hl)).1
  batch _ hl' p hp := by
    cases hl'
    exact h.batch _ hl p (List.mem_cons_of_mem _ hp)
  awake _ := .inr (.inr (.inr (by simp)))

theorem Safe.runLoop (h : Safe s ps) (hs : s.runLoop s.loop = some t) : ∃ ps', Safe t ps' := by
  cases hl : s.loop with
  | wait =>
    rw [hl] at hs
    cases hs
  | store =>
    rw [hl] at hs
    cases hs
    exact ⟨ps, h.store⟩
  | batch events =>
    rw [hl] at hs
    cases events with
    | nil =>
      cases hs
      exact ⟨[], h.clear⟩
    | cons e l =>
      cases e with
      | pd p =>
        cases hs
        exact ⟨ps, h.setBatch (List.nodup_cons.1 (h.nodup _ hl)).2 (fun hmem =>
          h.event _ hl (List.mem_cons_of_mem _ hmem))
          fun q hq => h.batch _ hl q (List.mem_cons_of_mem _ hq)⟩
      | event_fd =>
        cases hs
        exact ⟨ps, h.readEvent hl⟩

theorem Safe.step {a : Act} (h : Safe s ps) (hs : s.step a = some t) : ∃ ps', Safe t ps' := by
  cases a with
  | install p =>
    obtain ⟨hp, hs⟩ := Option.ite_none_right_eq_some.1 hs
    cases hs
    exact ⟨ps, h.install hp⟩
  | release p =>
    obtain ⟨r, hp, hs⟩ := Option.bind_eq_some_iff.1 hs
    exact h.run hp hs
  | tick => exact ⟨ps, h.runTick hs⟩
  | wait events =>
    obtain ⟨⟨-, hl, hready⟩, hs⟩ := Option.ite_none_right_eq_some.1 hs
    cases hs
    exact ⟨ps, h.wait hl hready⟩
  | loop => exact h.runLoop hs

theorem safe_of_reach (h : machine.Reach s) : ∃ ps, Safe s ps := by
  refine h.invariant (I := fun s => ∃ ps, Safe s ps) (fun s hs => ?_) fun s a t ⟨ps, hps⟩
    _ hst => hps.step hst
  cases hs
  exact ⟨[], .start⟩

/-- A descriptor that the loop finds in its batch is known to the collector, and `event_fd` can
be read when the loop reads it, whatever is released meanwhile. -/
theorem batch_kept (h : machine.Reach s) : (∀ p l, s.loop = .batch (.pd p :: l) → s.Kept p) ∧
    ∀ l, s.loop = .batch (.event_fd :: l) → s.event = true := by
  obtain ⟨ps, hsafe⟩ := safe_of_reach h
  refine ⟨fun p l hl => ?_, fun l hl => hsafe.event _ hl List.mem_cons_self⟩
  exact (hsafe.batch _ hl p List.mem_cons_self).imp_right hsafe.chain.mem_iff.1

/-- A descriptor that is released while it is in the batch. -/
theorem batch_kept_released :
    ∃ s, machine.Reach s ∧ s.loop = .batch [.pd 5] ∧ s.release 5 = some (.check false) ∧
    s.Kept 5 := by
  have hexec :
    machine.exec start [.install 5, .wait [.pd 5], .release 5, .release 5, .release 5] =
    some _ := rfl
  exact ⟨_, .of_exec rfl hexec, rfl, rfl, (batch_kept (.of_exec rfl hexec)).1 5 [] rfl⟩

end

end Misc.Yagw.Recycling
