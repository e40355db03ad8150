import Misc.Epaxos.Leader

namespace Misc.Epaxos
set_option autoImplicit true

/-- The Ok replies that the loop of `explicitPrepare` processes. -/
def processed (ep : Epaxos) : List (Option PrepareResp × Bool) → Nat → List PrepareResp
  | [], _ => []
  | (none, _) :: results, prepared => processed ep results prepared
  | (some resp, empty) :: results, prepared =>
    if resp.Ok then
      if ep.majorityQuorum ≤ prepared + 1 ∧ empty then [resp]
      else resp :: processed ep results (prepared + 1)
    else processed ep results prepared

/-- The ballot is the highest of the replies, and `r` are those that carry it. -/
structure IsHighest (replies : List PrepareResp) (highestBallot : BallotNumber)
    (r : List PrepareResp) : Prop where
  carried : ∃ resp ∈ replies, resp.Ballot = highestBallot
  highest : ∀ resp ∈ replies, lessBallotNumber highestBallot resp.Ballot = false
  all : r = replies.filter fun resp => resp.Ballot = highestBallot

section
variable {ep : Epaxos} {results : List (Option PrepareResp × Bool)} {n : Nat}
  {r : List PrepareResp}

theorem eq_zero_of_not_less {b : BallotNumber} (h : lessBallotNumber .zero b = false) :
    b = .zero := by
  by_contra hb
  rw [zero_lessBallotNumber hb] at h
  cases h

/-- From the zero ballot on, `highestBallot` never moves: a reply with a higher ballot is left
out. -/
theorem highest_zero (r : List PrepareResp) (resp : PrepareResp) :
    highest .zero r resp = (.zero, r ++ [resp].filter fun resp => resp.Ballot = .zero) := by
  rw [highest]
  cases hless : lessBallotNumber .zero resp.Ballot with
  | true =>
    have hne : resp.Ballot ≠ .zero := by
      intro he
      rw [he, lessBallotNumber_irrefl] at hless
      cases hless
    simp [hne]
  | false =>
    have he := eq_zero_of_not_less hless
    simp [he, equalBallotNumber]

theorem collecting_zero : collecting ep results n .zero r =
    (.zero, r ++ (processed ep results n).filter fun resp => resp.Ballot = .zero) := by
  induction results generalizing n r with
  | nil => rw [collecting, processed, List.filter_nil, List.append_nil]
  | cons result results ih =>
    obtain ⟨result, empty⟩ := result
    cases result with
    | none => exact ih
    | some resp =>
      rw [collecting, processed, highest_zero]
      dsimp only
      split_ifs
      · rfl
      · rw [ih, List.append_assoc, ← List.filter_append, List.singleton_append]
      · exact ih

/-- The loop of `explicitPrepare` finds the replies with the highest ballot if and only if all
the replies have the zero ballot. -/
theorem highest_iff (ep : Epaxos) (results : List (Option PrepareResp × Bool))
    (h : processed ep results 0 ≠ []) :
    IsHighest (processed ep results 0) (collecting ep results 0 .zero []).1
        (collecting ep results 0 .zero []).2 ↔
      ∀ resp ∈ processed ep results 0, resp.Ballot = .zero := by
  rw [collecting_zero, List.nil_append]
  constructor
  · intro hh resp hresp
    exact eq_zero_of_not_less (hh.highest resp hresp)
  · intro hz
    obtain ⟨resp, hresp⟩ := List.exists_mem_of_ne_nil _ h
    refine ⟨⟨resp, hresp, hz resp hresp⟩, ?_, rfl⟩
    intro resp hresp
    rw [hz resp hresp]
    exact lessBallotNumber_irrefl _

def unknown : PrepareResp := ⟨true, .zero, some ⟨1, 1⟩, some ⟨.nop, 0, [], .init⟩⟩

def known : PrepareResp := ⟨true, ⟨1, 0, 1⟩, some ⟨1, 1⟩, some ⟨.nop, 1, [], .preAccepted⟩⟩

theorem highest_iff_unknown :
    IsHighest [unknown] .zero [unknown] ↔ ∀ resp ∈ [unknown], resp.Ballot = .zero :=
  highest_iff ⟨0, 1, 3⟩ [(some unknown, true), (none, true), (none, true)] nofun

theorem not_highest : ¬ ∀ (ep : Epaxos) (results : List (Option PrepareResp × Bool)),
    processed ep results 0 ≠ [] → IsHighest (processed ep results 0)
      (collecting ep results 0 .zero []).1 (collecting ep results 0 .zero []).2 := by
  intro h
  have hh := h ⟨0, 1, 3⟩ [(some known, false), (some unknown, true), (none, true)] nofun
  have hlow := hh.highest known List.mem_cons_self
  revert hlow
  decide

end

end Misc.Epaxos
