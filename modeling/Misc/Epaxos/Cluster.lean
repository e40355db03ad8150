import Misc.Epaxos.Replica

namespace Misc.Epaxos
open Misc.Lib
set_option autoImplicit true

/-- Requests, with their sender, and responses, with the sender of the request and who
answers. -/
inductive Msg
  | preAccept (src : UInt64) (req : PreAcceptReq)
  | accept (src : UInt64) (req : AcceptReq)
  | commit (src : UInt64) (req : CommitReq)
  | prepare (src : UInt64) (req : PrepareReq)
  | preAccepted (src who : UInt64) (req : PreAcceptReq) (resp : PreAcceptResp)
  | accepted (src who : UInt64) (req : AcceptReq) (resp : AcceptResp)
  | prepared (src who : UInt64) (req : PrepareReq) (resp : PrepareResp)
  deriving DecidableEq, Repr

/-- The replicas, which of their calls are calls of `explicitPrepare`, and all messages ever
sent: a message may be delivered late, never, or more than once. -/
structure Cluster where
  reps : UInt64 → Replica
  recovery : UInt64 → Nat → Bool
  soup : List Msg

/-- A step of the replica `r`; `src` has sent the request that a handler gets. -/
structure Move where
  r : UInt64
  src : UInt64
  act : Act
  deriving DecidableEq, Repr

/-- The number of replicas, and the epoch of their configuration. -/
structure Config where
  n : Nat
  epoch : UInt64

def Config.ep (cfg : Config) (r : UInt64) : Epaxos := ⟨r, cfg.epoch, cfg.n⟩

/-- The results of `total` calls, in the order in which they arrive. They come from different
replicas; an error, or a result that the caller does not wait for, is `none`. -/
def Answers (cfg : Config) (total : Nat) (results : List (Result R))
    (sent : UInt64 → R → Prop) : Prop :=
  results.length = total ∧ ((results.filterMap id).map Prod.fst).Nodup ∧
    ∀ p ∈ results.filterMap id, p.1.toNat < cfg.n ∧ sent p.1 p.2

instance (cfg : Config) (total : Nat) (results : List (Result R)) (sent : UInt64 → R → Prop)
    [∀ r x, Decidable (sent r x)] : Decidable (Answers cfg total results sent) :=
  inferInstanceAs (Decidable (_ ∧ _))

namespace Cluster

def Receives (cfg : Config) (c : Cluster) (mv : Move) : Prop :=
  match mv.act with
  | .preAccept req => mv.src ≠ mv.r ∧ .preAccept mv.src req ∈ c.soup
  | .accept req => mv.src ≠ mv.r ∧ .accept mv.src req ∈ c.soup
  | .commit req => mv.src ≠ mv.r ∧ .commit mv.src req ∈ c.soup
  | .prepare req => .prepare mv.src req ∈ c.soup
  | .preAccepts k results =>
    match (c.reps mv.r).calls k with
    | .preAccepting ins => Answers cfg (cfg.n - 1) results fun who resp =>
        who ≠ mv.r ∧ .preAccepted mv.r who ins.req resp ∈ c.soup
    | _ => True
  | .accepts k results =>
    match (c.reps mv.r).calls k with
    | .accepting ins => Answers cfg (cfg.n - 1) results fun who resp =>
        who ≠ mv.r ∧ .accepted mv.r who ins.req resp ∈ c.soup
    | _ => True
  | .prepares k results =>
    match (c.reps mv.r).calls k with
    | .preparing i nextBallot => Answers cfg cfg.n (results.map Prod.fst) fun who resp =>
        .prepared mv.r who ⟨nextBallot, i⟩ resp ∈ c.soup
    | _ => True
  | _ => True

instance (cfg : Config) (c : Cluster) (mv : Move) : Decidable (Receives cfg c mv) := by
  unfold Receives
  split <;> (try split) <;> infer_instance

def sends (cfg : Config) (lib : Litu) (c : Cluster) (mv : Move) : List Msg :=
  let rep := c.reps mv.r
  match mv.act with
  | .preAccept req =>
    ((rep.state.preAccept lib.toSlices req).2.map (.preAccepted mv.src mv.r req)).toList
  | .accept req => [.accepted mv.src mv.r req (rep.state.accept req).2]
  | .prepare req => [.prepared mv.src mv.r req (rep.state.prepare req).2]
  | .recover _ i =>
    match Replica.maxSeen rep.state i with
    | some b => [.prepare mv.r ⟨(cfg.ep mv.r).nextBallot b, i⟩]
    | none => []
  | .go k =>
    match rep.calls k with
    | .next (.phase1 ins) => [.preAccept mv.r ins.req]
    | .next (.accept ins) => [.accept mv.r ins.req]
    | .next (.commit ins) => [.commit mv.r ins.req]
    | _ => []
  | _ => []

def marks (c : Cluster) (mv : Move) : UInt64 → Nat → Bool :=
  match mv.act with
  | .request k _ => Function.update c.recovery mv.r (Function.update (c.recovery mv.r) k false)
  | .recover k _ => Function.update c.recovery mv.r (Function.update (c.recovery mv.r) k true)
  | _ => c.recovery

def step (cfg : Config) (lib : Litu) (c : Cluster) (mv : Move) : Option Cluster :=
  if mv.r.toNat < cfg.n ∧ c.Receives cfg mv then
    ((c.reps mv.r).step (cfg.ep mv.r) lib mv.act).map fun rep =>
      { reps := Function.update c.reps mv.r rep
        recovery := c.marks mv
        soup := c.soup ++ c.sends cfg lib mv }
  else none

def start : Cluster := ⟨fun _ => Replica.start, fun _ _ => false, []⟩

def machine (cfg : Config) (lib : Litu) : Machine Cluster Move where
  init c := c = start
  step := step cfg lib

inductive Sends (cfg : Config) (lib : Litu) (c : Cluster) (mv : Move) : Msg → Prop
  | preAccepted (req : PreAcceptReq) (resp : PreAcceptResp) : mv.act = .preAccept req →
      ((c.reps mv.r).state.preAccept lib.toSlices req).2 = some resp →
      Sends cfg lib c mv (.preAccepted mv.src mv.r req resp)
  | accepted (req : AcceptReq) : mv.act = .accept req →
      Sends cfg lib c mv (.accepted mv.src mv.r req ((c.reps mv.r).state.accept req).2)
  | prepared (req : PrepareReq) : mv.act = .prepare req →
      Sends cfg lib c mv (.prepared mv.src mv.r req ((c.reps mv.r).state.prepare req).2)
  | prepare (k : Nat) (i : InstanceId) (b : BallotNumber) : mv.act = .recover k i →
      Sends cfg lib c mv (.prepare mv.r ⟨(cfg.ep mv.r).nextBallot b, i⟩)
  | preAccept (k : Nat) (ins : Instance) : mv.act = .go k →
      (c.reps mv.r).calls k = .next (.phase1 ins) → Sends cfg lib c mv (.preAccept mv.r ins.req)
  | accept (k : Nat) (ins : Instance) : mv.act = .go k →
      (c.reps mv.r).calls k = .next (.accept ins) → Sends cfg lib c mv (.accept mv.r ins.req)
  | commit (k : Nat) (ins : Instance) : mv.act = .go k →
      (c.reps mv.r).calls k = .next (.commit ins) → Sends cfg lib c mv (.commit mv.r ins.req)

section
variable {cfg : Config} {lib : Litu} {c c' : Cluster} {mv : Move} {m : Msg} {k : Nat}
  {ins : Instance}

theorem Receives.preAccepts {results : List (Result PreAcceptResp)} (h : c.Receives cfg mv)
    (ha : mv.act = .preAccepts k results) (hk : (c.reps mv.r).calls k = .preAccepting ins) :
    Answers cfg (cfg.n - 1) results fun who resp =>
      who ≠ mv.r ∧ .preAccepted mv.r who ins.req resp ∈ c.soup := by
  rw [Receives, ha] at h
  dsimp only at h
  rwa [hk] at h

theorem Receives.accepts {results : List (Result AcceptResp)} (h : c.Receives cfg mv)
    (ha : mv.act = .accepts k results) (hk : (c.reps mv.r).calls k = .accepting ins) :
    Answers cfg (cfg.n - 1) results fun who resp =>
      who ≠ mv.r ∧ .accepted mv.r who ins.req resp ∈ c.soup := by
  rw [Receives, ha] at h
  dsimp only at h
  rwa [hk] at h

theorem Receives.prepares {results : List (Result PrepareResp × Bool)} {i : InstanceId}
    {nextBallot : BallotNumber} (h : c.Receives cfg mv) (ha : mv.act = .prepares k results)
    (hk : (c.reps mv.r).calls k = .preparing i nextBallot) :
    Answers cfg cfg.n (results.map Prod.fst) fun who resp =>
      .prepared mv.r who ⟨nextBallot, i⟩ resp ∈ c.soup := by
  rw [Receives, ha] at h
  dsimp only at h
  rwa [hk] at h

theorem Sends.of_mem (h : m ∈ c.sends cfg lib mv) : Sends cfg lib c mv m := by
  obtain ⟨r, src, a⟩ := mv
  cases a with
  | preAccept req =>
    obtain ⟨resp, hresp, rfl⟩ := Option.map_eq_some_iff.1 (Option.mem_toList.1 h)
    exact .preAccepted req resp rfl hresp
  | accept req =>
    cases List.mem_singleton.1 h
    exact .accepted req rfl
  | prepare req =>
    cases List.mem_singleton.1 h
    exact .prepared req rfl
  | commit req | request k y | preAccepts k results | accepts k results | prepares k results =>
    cases h
  | recover k i =>
    rw [sends] at h
    dsimp only at h
    split at h
    · next b hb =>
      cases List.mem_singleton.1 h
      exact .prepare k i b rfl
    · cases h
  | go k =>
    rw [sends] at h
    dsimp only at h
    split at h
    · next ins hk =>
      cases List.mem_singleton.1 h
      exact .preAccept k ins rfl hk
    · next ins hk =>
      cases List.mem_singleton.1 h
      exact .accept k ins rfl hk
    · next ins hk =>
      cases List.mem_singleton.1 h
      exact .commit k ins rfl hk
    · cases h

theorem step_eq (h : step cfg lib c mv = some c') : mv.r.toNat < cfg.n ∧ c.Receives cfg mv ∧
    ∃ rep, (c.reps mv.r).step (cfg.ep mv.r) lib mv.act = some rep ∧
      c' = ⟨Function.update c.reps mv.r rep, c.marks mv, c.soup ++ c.sends cfg lib mv⟩ := by
  obtain ⟨⟨hr, hrec⟩, h⟩ := Option.ite_none_right_eq_some.1 h
  obtain ⟨rep, hrep, rfl⟩ := Option.map_eq_some_iff.1 h
  exact ⟨hr, hrec, rep, hrep, rfl⟩

theorem reps_step (h : step cfg lib c mv = some c') (r : UInt64) :
    r ≠ mv.r ∧ c'.reps r = c.reps r ∨
      r = mv.r ∧ (c.reps r).step (cfg.ep r) lib mv.act = some (c'.reps r) := by
  obtain ⟨-, -, rep, hrep, rfl⟩ := step_eq h
  by_cases he : r = mv.r
  · subst he
    dsimp only
    rw [Function.update_self]
    exact .inr ⟨rfl, hrep⟩
  · exact .inl ⟨he, Function.update_of_ne he ..⟩

theorem soup_step (h : step cfg lib c mv = some c') :
    c'.soup = c.soup ++ c.sends cfg lib mv := by
  obtain ⟨-, -, rep, -, rfl⟩ := step_eq h
  rfl

theorem recovery_step (h : step cfg lib c mv = some c') : c'.recovery = c.marks mv := by
  obtain ⟨-, -, rep, -, rfl⟩ := step_eq h
  rfl

end

end Cluster

end Misc.Epaxos
