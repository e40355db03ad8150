import Misc.Lib.Machine
import Misc.Epaxos.Promise
import Misc.Epaxos.Leader

namespace Misc.Epaxos
open Misc.Lib
set_option autoImplicit true

/-- A result of `invokeAsync`: who has answered, and what, or an error. -/
abbrev Result (R : Type) := Option (UInt64 × R)

/-- What a call waits for or does next. -/
inductive Pc
  | idle
  | interf (y : Command) (instanceIdx : UInt64)
  | next (n : Next)
  | preAccepting (ins : Instance)
  | accepting (ins : Instance)
  | preparing (i : InstanceId) (nextBallot : BallotNumber)
  deriving DecidableEq, Repr

structure Replica where
  state : State
  calls : Nat → Pc

/-- The steps of a replica, each of which holds the lock of the state at most once. -/
inductive Act
  | preAccept (req : PreAcceptReq)
  | accept (req : AcceptReq)
  | commit (req : CommitReq)
  | prepare (req : PrepareReq)
  | request (k : Nat) (y : Command)
  | recover (k : Nat) (i : InstanceId)
  | go (k : Nat)
  | preAccepts (k : Nat) (results : List (Result PreAcceptResp))
  | accepts (k : Nat) (results : List (Result AcceptResp))
  | prepares (k : Nat) (results : List (Result PrepareResp × Bool))
  deriving DecidableEq, Repr

def Act.call : Act → Option Nat
  | .request k _ | .recover k _ | .go k | .preAccepts k _ | .accepts k _ | .prepares k _ =>
    some k
  | _ => none

namespace Replica

def set (r : Replica) (k : Nat) (pc : Pc) : Replica :=
  { r with calls := Function.update r.calls k pc }

def put (r : Replica) (s : State) : Replica := { r with state := s }

/-- The instance that `commitCmd` proposes. -/
def propose (ep : Epaxos) (s : State) (y : Command) (instanceIdx : UInt64) : Instance :=
  let (maxSeq, cmdDeps) := s.getInterf y.Key
  let ballot : BallotNumber := ⟨ep.epoch, 0, ep.rid⟩
  ⟨⟨ep.rid, instanceIdx⟩, ballot, ballot, .preAccepted, y, maxSeq + 1, cmdDeps⟩

/-- The `MaxSeen` of a dependency that `recoveryDeps` has to prepare. -/
def maxSeen (s : State) (i : InstanceId) : Option BallotNumber :=
  match s.getCmd i with
  | some depIns => if depIns.State = .committed then none else some depIns.MaxSeen
  | none => some .zero

/-- The step of a call that waits for nothing. -/
def go (ep : Epaxos) (r : Replica) (k : Nat) : Option Replica :=
  match r.calls k with
  | .interf y idx => some (r.set k (.next (.phase1 (propose ep r.state y idx))))
  | .next (.phase1 ins) => some ((r.put (r.state.storeCmd ins)).set k (.preAccepting ins))
  | .next (.accept ins) =>
    let ins := { ins with State := .accepted }
    some ((r.put (r.state.storeCmd ins)).set k (.accepting ins))
  | .next (.commit ins) =>
    some ((r.put (r.state.storeCmd { ins with State := .committed })).set k .idle)
  | .next .stop => some (r.set k .idle)
  | _ => none

def step (ep : Epaxos) (lib : Litu) (r : Replica) : Act → Option Replica
  | .preAccept req => some (r.put (r.state.preAccept lib.toSlices req).1)
  | .accept req => some (r.put (r.state.accept req).1)
  | .commit req => some (r.put (r.state.commit req))
  | .prepare req => some (r.put (r.state.prepare req).1)
  | .request k y =>
    if r.calls k = .idle then
      let (s, idx) := r.state.allocInstance
      some ((r.put s).set k (.interf y idx))
    else none
  | .recover k i =>
    if r.calls k = .idle then
      (maxSeen r.state i).map fun b => r.set k (.preparing i (ep.nextBallot b))
    else none
  | .go k => r.go ep k
  | .preAccepts k results =>
    match r.calls k with
    | .preAccepting ins =>
      (preAccepted ep lib ins (results.map (Option.map Prod.snd))).map fun n => r.set k (.next n)
    | _ => none
  | .accepts k results =>
    match r.calls k with
    | .accepting ins =>
      some (r.set k (.next (accepted ep ins (results.map (Option.map Prod.snd)))))
    | _ => none
  | .prepares k results =>
    match r.calls k with
    | .preparing i nextBallot =>
      (prepared ep lib i nextBallot (results.map fun p => (p.1.map Prod.snd, p.2))).map fun n =>
        r.set k (.next n)
    | _ => none

/-- A replica on its own: any message may arrive, and any result. -/
def machine (ep : Epaxos) (lib : Litu) : Machine Replica Act where
  init r := r.calls = fun _ => .idle
  step := step ep lib

/-- The instance that a call is about to store without a look at the table. -/
def storing (r : Replica) : Act → Option Instance
  | .go k =>
    match r.calls k with
    | .next (.phase1 ins) | .next (.accept ins) => some ins
    | _ => none
  | _ => none

/-- `phase1` and `paxosAcceptPhase` do not store an instance that is committed. -/
def KeepsCommitted (r : Replica) (a : Act) : Prop :=
  ∀ ins, r.storing a = some ins → ¬ r.state.cmds.Committed ins.I

section
variable {ep : Epaxos} {lib : Litu} {r r' : Replica} {a : Act} {as : List Act} {id : InstanceId}
  {ins : Instance} {k : Nat}

theorem storeCmd_cmds (s : State) (ins : Instance) :
    (s.storeCmd ins).cmds = Function.update s.cmds ins.I (some ins) := rfl

inductive Stores (lib : Slices) (r : Replica) : Act → Instance → Prop
  | preAccept (req : PreAcceptReq) (ins : Instance) : r.state.preAccepted lib req = some ins →
      (∀ curr, r.state.cmds req.I = some curr →
        lessBallotNumber req.Ballot curr.MaxSeen = false ∧ curr.State ≠ .committed) →
      Stores lib r (.preAccept req) ins
  | accept (req : AcceptReq) :
      (∀ curr, r.state.cmds req.I = some curr →
        lessBallotNumber req.Ballot curr.Ballot = false ∧ curr.State ≠ .committed) →
      Stores lib r (.accept req) (req.toInstance .accepted)
  | commit (req : CommitReq) : Stores lib r (.commit req) (req.toInstance .committed)
  | phase1 (k : Nat) (ins : Instance) : r.calls k = .next (.phase1 ins) →
      Stores lib r (.go k) ins
  | acceptPhase (k : Nat) (ins : Instance) : r.calls k = .next (.accept ins) →
      Stores lib r (.go k) { ins with State := .accepted }
  | commitPhase (k : Nat) (ins : Instance) : r.calls k = .next (.commit ins) →
      Stores lib r (.go k) { ins with State := .committed }

theorem state_step (h : step ep lib r a = some r') :
    (∃ ins, r.Stores lib.toSlices a ins ∧ r'.state = r.state.storeCmd ins) ∨
      r.storing a = none ∧ (r'.state = r.state ∨
        ∃ k y, a = .request k y ∧ r'.state = r.state.allocInstance.1) := by
  cases a with
  | preAccept req =>
    cases h
    obtain ⟨ins, hins, heq, hall⟩ | ⟨heq, -⟩ := preAccept_cases lib.toSlices r.state req
    · exact .inl ⟨ins, .preAccept req ins hins hall, heq⟩
    · exact .inr ⟨rfl, .inl heq⟩
  | accept req =>
    cases h
    obtain ⟨heq, hall⟩ | ⟨heq, -⟩ := accept_cases r.state req
    · exact .inl ⟨_, .accept req hall, heq⟩
    · exact .inr ⟨rfl, .inl heq⟩
  | commit req =>
    cases h
    exact .inl ⟨_, .commit req, rfl⟩
  | prepare req =>
    cases h
    exact .inr ⟨rfl, .inl (prepare_state r.state req)⟩
  | request k y =>
    obtain ⟨-, heq⟩ := Option.ite_none_right_eq_some.1 h
    cases heq
    exact .inr ⟨rfl, .inr ⟨k, y, rfl, rfl⟩⟩
  | recover k i =>
    obtain ⟨-, heq⟩ := Option.ite_none_right_eq_some.1 h
    obtain ⟨b, -, rfl⟩ := Option.map_eq_some_iff.1 heq
    exact .inr ⟨rfl, .inl rfl⟩
  | go k =>
    rw [step, go] at h
    split at h
    · next y idx hk =>
      cases h
      exact .inr ⟨by rw [storing, hk], .inl rfl⟩
    · next ins hk =>
      cases h
      exact .inl ⟨ins, .phase1 k ins hk, rfl⟩
    · next ins hk =>
      cases h
      exact .inl ⟨_, .acceptPhase k ins hk, rfl⟩
    · next ins hk =>
      cases h
      exact .inl ⟨_, .commitPhase k ins hk, rfl⟩
    · next hk =>
      cases h
      exact .inr ⟨by rw [storing, hk], .inl rfl⟩
    · cases h
  | accepts k results =>
    rw [step] at h
    split at h
    · cases h
      exact .inr ⟨rfl, .inl rfl⟩
    · cases h
  | preAccepts k results | prepares k results =>
    rw [step] at h
    split at h
    · obtain ⟨n, -, rfl⟩ := Option.map_eq_some_iff.1 h
      exact .inr ⟨rfl, .inl rfl⟩
    · cases h

/-- What a step does to the table. In the `free` case it stores an instance without a look at
it. -/
inductive Writes (r : Replica) (a : Act) (r' : Replica) : Prop
  | same : r'.state.cmds = r.state.cmds → r.storing a = none → Writes r a r'
  | guarded (ins : Instance) : r'.state.cmds = Function.update r.state.cmds ins.I (some ins) →
      r.storing a = none → ¬ r.state.cmds.Committed ins.I → Writes r a r'
  | commits (ins : Instance) : r'.state.cmds = Function.update r.state.cmds ins.I (some ins) →
      r.storing a = none → ins.State = .committed → Writes r a r'
  | free (ins ins' : Instance) : r'.state.cmds = Function.update r.state.cmds ins.I (some ins') →
      r.storing a = some ins →
      (∃ k, r.calls k = .next (.phase1 ins)) ∧ ins' = ins ∨
        ins' = { ins with State := .accepted } →
      Writes r a r'

theorem writes_of_step (h : step ep lib r a = some r') : Writes r a r' := by
  obtain ⟨ins, hst, heq⟩ | ⟨hst, heq⟩ := state_step h
  · have hcmds : r'.state.cmds = Function.update r.state.cmds ins.I (some ins) := by
      rw [heq, storeCmd_cmds]
    cases hst with
    | preAccept req ins hins hall =>
      refine .guarded _ hcmds rfl ?_
      obtain ⟨seq, deps, rfl⟩ := preAccepted_attrs hins
      rintro ⟨curr, hcurr, hc⟩
      exact (hall curr hcurr).2 hc
    | accept req hall =>
      refine .guarded _ hcmds rfl ?_
      rintro ⟨curr, hcurr, hc⟩
      exact (hall curr hcurr).2 hc
    | commit req => exact .commits _ hcmds rfl rfl
    | phase1 k ins hk => exact .free ins ins hcmds (by rw [storing, hk]) (.inl ⟨⟨k, hk⟩, rfl⟩)
    | acceptPhase k ins hk => exact .free ins _ hcmds (by rw [storing, hk]) (.inr rfl)
    | commitPhase k ins hk => exact .commits _ hcmds (by rw [storing, hk]) rfl
  · obtain heq | ⟨k, y, -, heq⟩ := heq
    · exact .same (by rw [heq]) hst
    · exact .same (by rw [heq]; rfl) hst

/-- How a call goes on. -/
inductive Turn (ep : Epaxos) (lib : Litu) (r : Replica) (k : Nat) : Act → Pc → Prop
  | request (y : Command) : r.calls k = .idle →
      Turn ep lib r k (.request k y) (.interf y (r.state.instanceIdx + 1))
  | recover (i : InstanceId) (b : BallotNumber) : r.calls k = .idle →
      maxSeen r.state i = some b →
      Turn ep lib r k (.recover k i) (.preparing i (ep.nextBallot b))
  | interf (y : Command) (idx : UInt64) : r.calls k = .interf y idx →
      Turn ep lib r k (.go k) (.next (.phase1 (propose ep r.state y idx)))
  | phase1 (ins : Instance) : r.calls k = .next (.phase1 ins) →
      Turn ep lib r k (.go k) (.preAccepting ins)
  | accept (ins : Instance) : r.calls k = .next (.accept ins) →
      Turn ep lib r k (.go k) (.accepting { ins with State := .accepted })
  | commit (ins : Instance) : r.calls k = .next (.commit ins) → Turn ep lib r k (.go k) .idle
  | stop : r.calls k = .next .stop → Turn ep lib r k (.go k) .idle
  | preAccepts (results : List (Result PreAcceptResp)) (ins : Instance) (n : Next) :
      r.calls k = .preAccepting ins →
      preAccepted ep lib ins (results.map (Option.map Prod.snd)) = some n →
      Turn ep lib r k (.preAccepts k results) (.next n)
  | accepts (results : List (Result AcceptResp)) (ins : Instance) : r.calls k = .accepting ins →
      Turn ep lib r k (.accepts k results)
        (.next (accepted ep ins (results.map (Option.map Prod.snd))))
  | prepares (results : List (Result PrepareResp × Bool)) (i : InstanceId)
      (nextBallot : BallotNumber) (n : Next) : r.calls k = .preparing i nextBallot →
      prepared ep lib i nextBallot (results.map fun p => (p.1.map Prod.snd, p.2)) = some n →
      Turn ep lib r k (.prepares k results) (.next n)

theorem turn_of_step (h : step ep lib r a = some r') :
    a.call = none ∧ r'.calls = r.calls ∨
      ∃ k pc, a.call = some k ∧ r'.calls = Function.update r.calls k pc ∧
        Turn ep lib r k a pc := by
  cases a with
  | preAccept req | accept req | commit req | prepare req =>
    cases h
    exact .inl ⟨rfl, rfl⟩
  | request k y =>
    obtain ⟨hk, heq⟩ := Option.ite_none_right_eq_some.1 h
    cases heq
    exact .inr ⟨k, _, rfl, rfl, .request y hk⟩
  | recover k i =>
    obtain ⟨hk, heq⟩ := Option.ite_none_right_eq_some.1 h
    obtain ⟨b, hb, rfl⟩ := Option.map_eq_some_iff.1 heq
    exact .inr ⟨k, _, rfl, rfl, .recover i b hk hb⟩
  | go k =>
    rw [step, go] at h
    split at h
    · next y idx hk =>
      cases h
      exact .inr ⟨k, _, rfl, rfl, .interf y idx hk⟩
    · next ins hk =>
      cases h
      exact .inr ⟨k, _, rfl, rfl, .phase1 ins hk⟩
    · next ins hk =>
      cases h
      exact .inr ⟨k, _, rfl, rfl, .accept ins hk⟩
    · next ins hk =>
      cases h
      exact .inr ⟨k, _, rfl, rfl, .commit ins hk⟩
    · next hk =>
      cases h
      exact .inr ⟨k, _, rfl, rfl, .stop hk⟩
    · cases h
  | preAccepts k results =>
    rw [step] at h
    split at h
    · next ins hk =>
      obtain ⟨n, hn, rfl⟩ := Option.map_eq_some_iff.1 h
      exact .inr ⟨k, _, rfl, rfl, .preAccepts results ins n hk hn⟩
    · cases h
  | accepts k results =>
    rw [step] at h
    split at h
    · next ins hk =>
      cases h
      exact .inr ⟨k, _, rfl, rfl, .accepts results ins hk⟩
    · cases h
  | prepares k results =>
    rw [step] at h
    split at h
    · next i nextBallot hk =>
      obtain ⟨n, hn, rfl⟩ := Option.map_eq_some_iff.1 h
      exact .inr ⟨k, _, rfl, rfl, .prepares results i nextBallot n hk hn⟩
    · cases h

theorem calls_step (h : step ep lib r a = some r') (k : Nat) :
    a.call ≠ some k ∧ r'.calls k = r.calls k ∨
      a.call = some k ∧ Turn ep lib r k a (r'.calls k) := by
  obtain ⟨ha, heq⟩ | ⟨j, pc, ha, heq, ht⟩ := turn_of_step h
  · exact .inl ⟨by rw [ha]; exact nofun, by rw [heq]⟩
  · rw [heq]
    by_cases he : k = j
    · subst he
      exact .inr ⟨ha, by rwa [Function.update_self]⟩
    · left
      rw [ha, Function.update_of_ne he]
      exact ⟨fun hj => he (Option.some.inj hj).symm, rfl⟩

theorem instanceIdx_request {y : Command} (h : step ep lib r (.request k y) = some r') :
    r'.state.instanceIdx = r.state.instanceIdx + 1 := by
  obtain ⟨-, heq⟩ := Option.ite_none_right_eq_some.1 h
  cases heq
  rfl

theorem instanceIdx_step (h : step ep lib r a = some r') :
    r'.state.instanceIdx = r.state.instanceIdx ∨ ∃ k y, a = .request k y := by
  obtain ⟨ins, -, heq⟩ | ⟨-, heq | ⟨k, y, ha, -⟩⟩ := state_step h
  · left
    rw [heq]
    rfl
  · left
    rw [heq]
  · exact .inr ⟨k, y, ha⟩

theorem committed_update {cmds : Cmds} {i : InstanceId} (h : cmds.Committed id)
    (hi : i = id → ins.State = .committed) :
    Cmds.Committed (Function.update cmds i (some ins)) id := by
  by_cases he : i = id
  · subst he
    exact ⟨ins, Function.update_self .., hi rfl⟩
  · obtain ⟨old, hold, hc⟩ := h
    exact ⟨old, (Function.update_of_ne (Ne.symm he) ..).trans hold, hc⟩

/-- A step that keeps to the condition keeps what is committed. -/
theorem committed_step (h : step ep lib r a = some r') (ha : r.KeepsCommitted a)
    (hc : r.state.cmds.Committed id) : r'.state.cmds.Committed id := by
  cases writes_of_step h with
  | same heq => rwa [heq]
  | guarded ins heq _ hn =>
    rw [heq]
    exact committed_update hc fun hi => absurd (hi ▸ hc) hn
  | commits ins heq _ hs =>
    rw [heq]
    exact committed_update hc fun _ => hs
  | free ins ins' heq hst =>
    rw [heq]
    exact committed_update hc fun hi => absurd (hi ▸ hc) (ha ins hst)

/-- The calls store pre-accepted instances in `phase1`. -/
def Fresh (r : Replica) : Prop :=
  ∀ k ins, r.calls k = .next (.phase1 ins) → ins.State = .preAccepted

theorem Fresh.step (h : r.Fresh) (hr : step ep lib r a = some r') : r'.Fresh := by
  intro k ins hk
  rcases calls_step hr k with ⟨-, heq⟩ | ⟨-, ht⟩
  · exact h k ins (heq ▸ hk)
  · rw [hk] at ht
    generalize hn : Pc.next (.phase1 ins) = pc at ht
    cases ht with
    | interf y idx _ =>
      cases hn
      rfl
    | preAccepts results old n _ hnext =>
      cases hn
      exact absurd hnext (preAccepted_ne_phase1 _ ins)
    | accepts results old _ =>
      injection hn with hn
      obtain hs | ⟨_, -, hs⟩ := accepted_cases ep old (results.map (Option.map Prod.snd))
      · cases hn.trans hs
      · cases hn.trans hs
    | prepares results i nextBallot n _ hp =>
      cases hn
      obtain heq | ⟨resp, cmd, -, -, ⟨heq, -⟩ | heq | ⟨heq, hcmd⟩⟩ := prepared_cases hp
      all_goals cases heq
      · rfl
      · exact hcmd
    | request | recover | phase1 | accept | commit | stop => cases hn

theorem uncommitted_step (h : step ep lib r a = some r') (hf : r.Fresh)
    (ha : r.storing a = some ins) : ¬ r'.state.cmds.Committed ins.I := by
  cases writes_of_step h with
  | same _ hs | guarded _ _ hs | commits _ _ hs =>
    rw [hs] at ha
    cases ha
  | free old new heq hs hnew =>
    cases hs.symm.trans ha
    rintro ⟨cur, hcur, hc⟩
    rw [heq, Function.update_self] at hcur
    cases hcur
    rcases hnew with ⟨⟨k, hk⟩, rfl⟩ | rfl
    · rw [hf k _ hk] at hc
      cases hc
    · cases hc

/-- In every part of the run what is committed at its beginning is committed at its end. -/
def Stable (ep : Epaxos) (lib : Litu) (s : Replica) (as : List Act) : Prop :=
  ∀ as₁ as₂ as₃ u v id, as = as₁ ++ (as₂ ++ as₃) → (machine ep lib).Run s as₁ u →
    (machine ep lib).Run u as₂ v → u.state.cmds.Committed id → v.state.cmds.Committed id

theorem Stable.of_runIf {s t : Replica} (h : (machine ep lib).RunIf KeepsCommitted s as t) :
    Stable ep lib s as := by
  rintro as₁ as₂ as₃ u v id rfl hu hv hc
  obtain ⟨u', hu', h⟩ := h.split
  obtain ⟨v', hv', -⟩ := h.split
  cases hu.unique hu'
  cases hv.unique hv'
  exact hv'.invariant hc fun r a r' hr ha hstep => committed_step hstep ha hr

theorem Stable.runIf {s t : Replica} (hs : s.Fresh) (h : (machine ep lib).Run s as t)
    (hst : Stable ep lib s as) : (machine ep lib).RunIf KeepsCommitted s as t := by
  induction h with
  | nil s => exact .nil s
  | @cons s a s' as t ha hstep hrest ih =>
    refine .cons ?_ hstep (ih (hs.step hstep) ?_)
    · intro ins hins hc
      have hkept := hst [] [a] as s s' ins.I rfl (.nil s) (.cons trivial hstep (.nil s')) hc
      exact uncommitted_step hstep hs hins hkept
    · rintro as₁ as₂ as₃ u v id rfl hu hv
      exact hst (a :: as₁) as₂ as₃ u v id rfl (.cons trivial hstep hu) hv

/-- In a run of the replica, commits are stable if and only if no step of `phase1` or
`paxosAcceptPhase` stores an instance that the table holds committed. -/
theorem commit_stable_iff {s t : Replica} (hs : (machine ep lib).init s)
    (h : (machine ep lib).Run s as t) :
    Stable ep lib s as ↔ (machine ep lib).RunIf KeepsCommitted s as t := by
  have hf : s.Fresh := by
    intro k ins hk
    rw [hs] at hk
    cases hk
  exact ⟨fun hst => hst.runIf hf h, .of_runIf⟩

def start : Replica := ⟨.empty, fun _ => .idle⟩

def put1 : Command := ⟨.w, [1], some [2]⟩

theorem commit_stable_iff_request : ∃ t,
    (machine ⟨0, 0, 3⟩ .plain).Run start [.request 0 put1, .go 0, .go 0] t ∧
      (Stable ⟨0, 0, 3⟩ .plain start [.request 0 put1, .go 0, .go 0] ↔
        (machine ⟨0, 0, 3⟩ .plain).RunIf KeepsCommitted start
          [.request 0 put1, .go 0, .go 0] t) :=
  ⟨_, .of_exec rfl, commit_stable_iff rfl (.of_exec rfl)⟩

/-- While a leader waits for the results of `PreAccept`, its instance is recovered and committed
by another replica; a result with another dependency sends it to `paxosAcceptPhase`. -/
def overtaken : List Act :=
  [.request 0 put1, .go 0, .go 0, .commit ⟨⟨0, 1, 1⟩, .nop, 0, [], ⟨0, 1⟩⟩,
    .preAccepts 0 [some (1, ⟨true, ⟨0, 0, 0⟩, some put1, 2, [some ⟨1, 1⟩], some ⟨0, 1⟩⟩), none]]

theorem commit_overwritten : ¬ ∀ (ep : Epaxos) (lib : Litu) (s u v : Replica) (as as' : List Act)
    (id : InstanceId), (machine ep lib).init s → (machine ep lib).Run s as u →
      (machine ep lib).Run u as' v → u.state.cmds.Committed id → v.state.cmds.Committed id := by
  intro h
  obtain ⟨ins, hins, hc⟩ := h ⟨0, 0, 3⟩ .plain start _ _ overtaken [.go 0] ⟨0, 1⟩ rfl
    (.of_exec rfl) (.of_exec rfl) ⟨_, rfl, rfl⟩
  revert hc
  cases hins
  decide

end

end Replica

end Misc.Epaxos
