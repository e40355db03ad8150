import Misc.Epaxos.Leader

namespace Misc.Epaxos
set_option autoImplicit true

/-- What `paxosAcceptPhase` sees of a call of a peer: its reply, or an error. -/
def AcceptReq.result (req : AcceptReq) (peer : Option State) : Option AcceptResp :=
  peer.map fun s => (s.accept req).2

/-- `paxosAcceptPhase` up to its decision. The calls come in the order of their results, each
with the state in which the peer serves the call that it answers; `none` is a call that ends
with an error. -/
def State.paxosAcceptPhase (s : State) (ep : Epaxos) (ins : Instance)
    (peers : List (Option State)) : State × Next :=
  let ins := { ins with State := .accepted }
  (s.storeCmd ins, accepted ep ins (peers.map ins.req.result))

/-- The votes that `paxosAcceptPhase` has counted after these calls, with its own. -/
def votes (ep : Epaxos) (ins : Instance) (peers : List (Option State)) : Nat :=
  let ins := { ins with State := .accepted }
  (accepting ep (peers.map ins.req.result) ins 1).2

def State.Refuses (s : State) (req : AcceptReq) : Prop :=
  ∃ curr, s.getCmd req.I = some curr ∧
    (lessBallotNumber req.Ballot curr.Ballot = true ∨ curr.State = .committed)

def State.Stores (s : State) (req : AcceptReq) : Prop :=
  (s.accept req).1.getCmd req.I = some (req.toInstance .accepted)

instance (s : State) (req : AcceptReq) : Decidable (s.Stores req) :=
  inferInstanceAs (Decidable (_ = _))

/-- The peers that have stored the instance of the request. -/
def AcceptReq.stored (req : AcceptReq) (peers : List (Option State)) : Nat :=
  peers.countP fun peer => peer.any fun s => s.Stores req

/-- `paxosAcceptPhase` counts a reply exactly when its peer has stored the instance, and commits
when the leader and its peers that have are a majority. -/
structure VotesAsCast (ep : Epaxos) (ins : Instance) (peers : List (Option State)) : Prop where
  counted : ∀ before s after, peers = before ++ some s :: after →
    votes ep ins before < ep.majorityQuorum →
    (votes ep ins (before ++ [some s]) = votes ep ins before + 1 ↔ s.Stores ins.req)
  commits : ep.majorityQuorum ≤ 1 + ins.req.stored peers →
    ∀ s : State, ∃ new, (s.paxosAcceptPhase ep ins peers).2 = .commit new

variable {ep : Epaxos} {ins : Instance} {s : State} {req : AcceptReq}
  {peers : List (Option State)}

/-- No reply of `Accept` is `Ok`, not even after it has stored the instance. -/
theorem State.accept_ok (s : State) (req : AcceptReq) : (s.accept req).2.Ok = false := by
  rw [State.accept]
  split
  · split
    · rfl
    · rfl
  · rfl

theorem State.stores_iff : s.Stores req ↔ ¬ s.Refuses req := by
  have hstore : (State.accept.store s req).1.getCmd req.I = some (req.toInstance .accepted) :=
    Function.update_self ..
  rw [Stores, Refuses, State.accept]
  cases hget : s.getCmd req.I with
  | none => simpa using hstore
  | some curr =>
    dsimp only
    split_ifs with hrefuse
    · simp only [hget, Option.some.injEq, exists_eq_left', hrefuse, not_true_eq_false, iff_false]
      -- a refused request would have to be the instance itself, in another state or below its
      -- ballot
      rintro rfl
      rcases hrefuse with hless | hstate
      · exact Bool.false_ne_true ((lessBallotNumber_irrefl _).symm.trans hless)
      · cases hstate
    · simpa [hrefuse] using hstore

theorem accepting_refused {results : List (Option AcceptResp)}
    (h : ∀ resp, some resp ∈ results → resp.Ok = false) (ins : Instance) (n : Nat) :
    (accepting ep results ins n).2 = n := by
  induction results generalizing ins with
  | nil => rfl
  | cons result results ih =>
    have ih := ih fun resp hresp => h resp (List.mem_cons_of_mem _ hresp)
    cases result with
    | none => exact ih ins
    | some resp =>
      rw [accepting, h resp List.mem_cons_self]
      exact ih _

/-- The leader counts no vote but its own. -/
theorem votes_eq_one (ep : Epaxos) (ins : Instance) (peers : List (Option State)) :
    votes ep ins peers = 1 := by
  apply accepting_refused
  intro resp hresp
  obtain ⟨peer, -, hpeer⟩ := List.mem_map.1 hresp
  obtain ⟨s, -, rfl⟩ := Option.map_eq_some_iff.1 hpeer
  exact s.accept_ok _

theorem State.paxosAcceptPhase_stop (s : State) (ins : Instance) (peers : List (Option State))
    (h : 1 < ep.majorityQuorum) : (s.paxosAcceptPhase ep ins peers).2 = .stop := by
  have hvotes := votes_eq_one ep ins peers
  rw [votes] at hvotes
  rw [State.paxosAcceptPhase, accepted]
  dsimp only
  rw [hvotes, if_pos h]

theorem State.paxosAcceptPhase_commit (s : State) (ins : Instance) (peers : List (Option State))
    (h : ¬ 1 < ep.majorityQuorum) :
    ∃ new, (s.paxosAcceptPhase ep ins peers).2 = .commit new := by
  have hvotes := votes_eq_one ep ins peers
  rw [votes] at hvotes
  rw [State.paxosAcceptPhase, accepted]
  dsimp only
  rw [hvotes, if_neg h]
  exact ⟨_, rfl⟩

theorem one_lt_majorityQuorum : 1 < ep.majorityQuorum ↔ 1 < ep.peers := by
  rw [Epaxos.majorityQuorum]
  omega

/-- Votes are counted as cast exactly when no peer that replies has stored the instance. -/
theorem votesAsCast_iff (ep : Epaxos) (ins : Instance) (peers : List (Option State)) :
    VotesAsCast ep ins peers ↔ ep.peers ≤ 1 ∨ ∀ s, some s ∈ peers → s.Refuses ins.req := by
  constructor
  · intro h
    by_cases hn : ep.peers ≤ 1
    · exact .inl hn
    · right
      intro s hs
      by_contra hrefuse
      obtain ⟨before, after, rfl⟩ := List.append_of_mem hs
      have hlt : votes ep ins before < ep.majorityQuorum := by
        rw [votes_eq_one ep]
        exact one_lt_majorityQuorum.2 (Nat.lt_of_not_le hn)
      have hcounted := (h.counted before s after rfl hlt).2 (State.stores_iff.2 hrefuse)
      rw [votes_eq_one ep, votes_eq_one ep] at hcounted
      omega
  · rintro (hn | hall)
    · have hquorum : ¬ 1 < ep.majorityQuorum := fun h =>
        absurd (one_lt_majorityQuorum.1 h) (Nat.not_lt_of_le hn)
      constructor
      · intro before s after _ hlt
        rw [votes_eq_one ep] at hlt
        exact absurd hlt hquorum
      · intro _ s
        exact s.paxosAcceptPhase_commit ins peers hquorum
    · have hstored : ins.req.stored peers = 0 := by
        rw [AcceptReq.stored, List.countP_eq_zero]
        intro peer hpeer
        cases peer with
        | none => simp
        | some s => simpa [State.stores_iff] using hall s hpeer
      constructor
      · intro before s after hpeers _
        have hs := hall s (by rw [hpeers]; exact List.mem_append_right _ List.mem_cons_self)
        rw [votes_eq_one ep, votes_eq_one ep, State.stores_iff]
        simp [hs]
      · intro hle s
        rw [hstored] at hle
        exact s.paxosAcceptPhase_commit ins peers (Nat.not_lt_of_le hle)

/-- Of three replicas all store the instance, and the leader stops. -/
theorem not_votesAsCast_empty :
    ¬ VotesAsCast ⟨0, 1, 3⟩ ⟨⟨0, 1⟩, ⟨1, 0, 0⟩, ⟨1, 0, 0⟩, .preAccepted,
      ⟨.w, [1], some [2]⟩, 1, []⟩ [some .empty, some .empty] := by
  intro h
  obtain ⟨new, hnew⟩ := h.commits (by decide) .empty
  rw [State.paxosAcceptPhase_stop _ _ _ (by decide)] at hnew
  cases hnew

end Misc.Epaxos
