import Misc.Epaxos.Handlers

namespace Misc.Epaxos
set_option autoImplicit true

/-- The requests that an acceptor gets from proposers. -/
inductive Req
  | prepare (req : PrepareReq)
  | preAccept (req : PreAcceptReq)
  | accept (req : AcceptReq)
  deriving DecidableEq, Repr

def State.handle (lib : Slices) (s : State) : Req → State
  | .prepare req => (s.prepare req).1
  | .preAccept req => (s.preAccept lib req).1
  | .accept req => (s.accept req).1

def Req.Below (b : BallotNumber) (i : InstanceId) : Req → Prop
  | .prepare _ => False
  | .preAccept req | .accept req => req.I = i ∧ lessBallotNumber req.Ballot b = true

/-- What is stored already keeps lower ballots away. -/
def Guarded (b : BallotNumber) (ins : Instance) : Prop :=
  ins.State = .committed ∨
    lessBallotNumber ins.MaxSeen b = false ∧ lessBallotNumber ins.Ballot b = false

section
variable {lib : Slices} {s : State} {b : BallotNumber} {i : InstanceId}
  {ins : Instance} {req : Req}

theorem prepare_state (s : State) (req : PrepareReq) : (s.prepare req).1 = s := by
  rw [State.prepare]
  split
  · split_ifs <;> rfl
  · rfl

theorem storeCmd_self (s : State) (ins : Instance) : (s.storeCmd ins).cmds ins.I = some ins :=
  Function.update_self ..

theorem storeCmd_of_ne (s : State) (h : i ≠ ins.I) : (s.storeCmd ins).cmds i = s.cmds i :=
  Function.update_of_ne h ..

theorem preAccept_cases (lib : Slices) (s : State) (req : PreAcceptReq) :
    (∃ ins, s.preAccepted lib req = some ins ∧ (s.preAccept lib req).1 = s.storeCmd ins ∧
        ∀ curr, s.cmds req.I = some curr →
          lessBallotNumber req.Ballot curr.MaxSeen = false ∧ curr.State ≠ .committed) ∨
      (s.preAccept lib req).1 = s ∧ (s.preAccepted lib req = none ∨ ∃ curr,
        s.cmds req.I = some curr ∧
          (lessBallotNumber req.Ballot curr.MaxSeen = true ∨ curr.State = .committed)) := by
  rw [State.preAccept, State.getCmd, State.preAccept.store]
  cases hc : s.cmds req.I with
  | none =>
    cases hins : s.preAccepted lib req with
    | none => exact .inr ⟨rfl, .inl rfl⟩
    | some ins => exact .inl ⟨ins, rfl, rfl, nofun⟩
  | some curr =>
    dsimp only
    split_ifs with h
    · exact .inr ⟨rfl, .inr ⟨curr, rfl, h⟩⟩
    · cases hins : s.preAccepted lib req with
      | none => exact .inr ⟨rfl, .inl rfl⟩
      | some ins =>
        refine .inl ⟨ins, rfl, rfl, ?_⟩
        rintro _ ⟨⟩
        rw [not_or, Bool.not_eq_true] at h
        exact h

theorem accept_cases (s : State) (req : AcceptReq) :
    (s.accept req).1 = s.storeCmd (req.toInstance .accepted) ∧
        (∀ curr, s.cmds req.I = some curr →
          lessBallotNumber req.Ballot curr.Ballot = false ∧ curr.State ≠ .committed) ∨
      (s.accept req).1 = s ∧ ∃ curr, s.cmds req.I = some curr ∧
        (lessBallotNumber req.Ballot curr.Ballot = true ∨ curr.State = .committed) := by
  rw [State.accept, State.getCmd]
  cases hc : s.cmds req.I with
  | none => exact .inl ⟨rfl, nofun⟩
  | some curr =>
    dsimp only
    split_ifs with h
    · exact .inr ⟨rfl, curr, rfl, h⟩
    · refine .inl ⟨rfl, ?_⟩
      rintro _ ⟨⟩
      rw [not_or, Bool.not_eq_true] at h
      exact h

/-- A lower ballot does not change a guarded instance. -/
theorem Guarded.below (h : Guarded b ins) (hs : s.cmds i = some ins) (hr : req.Below b i) :
    (s.handle lib req).cmds i = s.cmds i := by
  cases req with
  | prepare req => exact absurd hr id
  | preAccept req =>
    obtain ⟨rfl, hlt⟩ := hr
    obtain ⟨-, -, -, hall⟩ | ⟨heq, -⟩ := preAccept_cases lib s req
    · obtain ⟨hge, hne⟩ := hall ins hs
      obtain hcom | ⟨hseen, -⟩ := h
      · exact absurd hcom hne
      · rw [lessBallotNumber_of_le hlt hseen] at hge
        cases hge
    · rw [State.handle, heq]
  | accept req =>
    obtain ⟨rfl, hlt⟩ := hr
    obtain ⟨-, hall⟩ | ⟨heq, -⟩ := accept_cases s req
    · obtain ⟨hge, hne⟩ := hall ins hs
      obtain hcom | ⟨-, hbal⟩ := h
      · exact absurd hcom hne
      · rw [lessBallotNumber_of_le hlt hbal] at hge
        cases hge
    · rw [State.handle, heq]

/-- Every request leaves a guarded instance guarded. -/
theorem Guarded.step (h : Guarded b ins) (hs : s.cmds i = some ins) (lib : Slices) (req : Req) :
    ∃ ins', (s.handle lib req).cmds i = some ins' ∧ Guarded b ins' := by
  have hkeep {t : State} (ht : t = s) : ∃ ins', t.cmds i = some ins' ∧ Guarded b ins' :=
    ⟨ins, by rw [ht, hs], h⟩
  have hstore {new : Instance} (hb : new.I = i → lessBallotNumber new.Ballot b = false)
      (hm : new.MaxSeen = new.Ballot) :
      ∃ ins', (s.storeCmd new).cmds i = some ins' ∧ Guarded b ins' := by
    by_cases hi : new.I = i
    · subst hi
      exact ⟨new, storeCmd_self s new, .inr ⟨by rw [hm, hb rfl], hb rfl⟩⟩
    · exact ⟨ins, by rw [storeCmd_of_ne s (Ne.symm hi), hs], h⟩
  have hge {r c : BallotNumber} (hc : lessBallotNumber c b = false)
      (hr : lessBallotNumber r c = false) : lessBallotNumber r b = false := by
    by_contra hlt
    rw [Bool.not_eq_false] at hlt
    rw [lessBallotNumber_of_le hlt hc] at hr
    cases hr
  cases req with
  | prepare req => exact hkeep (prepare_state s req)
  | preAccept req =>
    obtain ⟨new, hnew, heq, hall⟩ | ⟨heq, -⟩ := preAccept_cases lib s req
    · obtain ⟨seq, deps, rfl⟩ := preAccepted_attrs hnew
      rw [State.handle, heq]
      refine hstore ?_ rfl
      rintro rfl
      obtain ⟨hseen, hne⟩ := hall ins hs
      obtain hcom | ⟨hm, -⟩ := h
      · exact absurd hcom hne
      · exact hge hm hseen
    · exact hkeep heq
  | accept req =>
    obtain ⟨heq, hall⟩ | ⟨heq, -⟩ := accept_cases s req
    · rw [State.handle, heq]
      refine hstore ?_ rfl
      rintro rfl
      obtain ⟨hbal, hne⟩ := hall ins hs
      obtain hcom | ⟨-, hb⟩ := h
      · exact absurd hcom hne
      · exact hge hb hbal
    · exact hkeep heq

theorem Guarded.run (h : Guarded b ins) (hs : s.cmds i = some ins) (lib : Slices)
    (reqs : List Req) :
    ∃ ins', (reqs.foldl (State.handle lib) s).cmds i = some ins' ∧ Guarded b ins' := by
  induction reqs generalizing s ins with
  | nil => exact ⟨ins, hs, h⟩
  | cons req reqs ih =>
    obtain ⟨ins', hs', h'⟩ := h.step hs lib req
    exact ih h' hs'

theorem preAccepted_nil (lib : Slices) (s : State) {req : PreAcceptReq} (h : req.Deps = []) :
    s.preAccepted lib req ≠ none := by
  have hshort : (s.getInterf req.Y.Key).2.length ≤ 1 := by
    rw [State.getInterf]
    cases s.root req.Y.Key with
    | none => exact Nat.zero_le 1
    | some dep => exact Nat.le_refl 1
  have hunion := lib.union_nil cmpPtr (s.getInterf req.Y.Key).2
  have hnil : ([] : List (Option InstanceId)).length ≤ 1 := Nat.zero_le 1
  obtain ⟨deps, hdeps⟩ := Option.isSome_iff_exists.1 hunion
  rw [State.preAccepted, State.mergedDeps, h, sortInstanceIds_short hshort,
    sortInstanceIds_short hnil, Option.bind_some, Option.bind_some, hdeps]
  exact nofun

theorem exists_ne_command (y : Command) : ∃ z, z ≠ y := by
  by_cases h : y = .nop
  · exact ⟨⟨.r, [], none⟩, by rw [h]; decide⟩
  · exact ⟨.nop, Ne.symm h⟩

/-- Without the guard a lower ballot changes what is stored. -/
theorem exists_below (lib : Slices) (hb : b ≠ .zero)
    (h : ∀ ins, s.cmds i = some ins → ¬ Guarded b ins) :
    ∃ req : Req, req.Below b i ∧ (s.handle lib req).cmds i ≠ s.cmds i := by
  cases hs : s.cmds i with
  | none =>
    refine ⟨.accept ⟨.zero, .nop, 0, [], i⟩, ⟨rfl, zero_lessBallotNumber hb⟩, ?_⟩
    obtain ⟨heq, -⟩ | ⟨-, curr, hcurr, -⟩ := accept_cases s ⟨.zero, .nop, 0, [], i⟩
    · rw [State.handle, heq]
      intro hn
      cases (storeCmd_self s _).symm.trans hn
    · rw [hs] at hcurr
      cases hcurr
  | some ins =>
    have hg := h ins hs
    rw [Guarded, not_or, not_and_or, Bool.not_eq_false, Bool.not_eq_false] at hg
    obtain ⟨hcom, hlow⟩ := hg
    obtain ⟨y, hy⟩ := exists_ne_command ins.Y
    rcases hlow with hseen | hbal
    · refine ⟨.preAccept ⟨ins.MaxSeen, y, 0, [], i⟩, ⟨rfl, hseen⟩, ?_⟩
      obtain ⟨new, hnew, heq, -⟩ | ⟨-, hnone | ⟨curr, hcurr, hdeny⟩⟩ :=
        preAccept_cases lib s ⟨ins.MaxSeen, y, 0, [], i⟩
      · obtain ⟨seq, deps, rfl⟩ := preAccepted_attrs hnew
        rw [State.handle, heq]
        intro hn
        have hstored := (storeCmd_self s _).symm.trans hn
        exact hy (congrArg Instance.Y (Option.some.inj hstored))
      · exact absurd hnone (preAccepted_nil lib s rfl)
      · cases hs.symm.trans hcurr
        rw [lessBallotNumber_irrefl] at hdeny
        exact hdeny.elim nofun fun hc => absurd hc hcom
    · refine ⟨.accept ⟨ins.Ballot, y, 0, [], i⟩, ⟨rfl, hbal⟩, ?_⟩
      obtain ⟨heq, -⟩ | ⟨-, curr, hcurr, hdeny⟩ := accept_cases s ⟨ins.Ballot, y, 0, [], i⟩
      · rw [State.handle, heq]
        intro hn
        have hstored := (storeCmd_self s (AcceptReq.toInstance _ .accepted)).symm.trans hn
        exact hy (congrArg Instance.Y (Option.some.inj hstored))
      · cases hs.symm.trans hcurr
        rw [lessBallotNumber_irrefl] at hdeny
        exact hdeny.elim nofun fun hc => absurd hc hcom

/-- After `Prepare` with a ballot, no sequence of requests lets a lower ballot change the
instance exactly when the instance was guarded before. -/
theorem promise_iff (lib : Slices) (s : State) (b : BallotNumber) (i : InstanceId) :
    (∀ (reqs : List Req) (req : Req), req.Below b i →
      let t := reqs.foldl (State.handle lib) (s.prepare ⟨b, i⟩).1
      (t.handle lib req).cmds i = t.cmds i) ↔
    b = .zero ∨ ∃ ins, s.cmds i = some ins ∧ Guarded b ins := by
  rw [prepare_state]
  constructor
  · intro h
    by_contra hn
    rw [not_or, not_exists] at hn
    obtain ⟨req, hreq, hne⟩ := exists_below (s := s) (i := i) lib hn.1 fun ins hs hg =>
      hn.2 ins ⟨hs, hg⟩
    exact hne (h [] req hreq)
  · rintro (rfl | ⟨ins, hs, hg⟩) reqs req hreq
    · cases req with
      | prepare req => exact absurd hreq id
      | preAccept req | accept req =>
        rw [Req.Below, not_lessBallotNumber_zero] at hreq
        cases hreq.2
    · obtain ⟨ins', hs', hg'⟩ := hg.run hs lib reqs
      exact hg'.below hs' hreq

/-- A replica that has nothing stored answers `Prepare` and then accepts a lower ballot. -/
theorem promise_broken : ¬ ∀ (lib : Slices) (s : State) (b : BallotNumber) (i : InstanceId),
    (s.prepare ⟨b, i⟩).2.Ok = true → ∀ (reqs : List Req) (req : Req), req.Below b i →
      let t := reqs.foldl (State.handle lib) (s.prepare ⟨b, i⟩).1
      (t.handle lib req).cmds i = t.cmds i := by
  intro h
  have hkeep :=
    h ⟨.insertion _, fun _ a b => some (a ++ b), fun _ _ => rfl⟩ .empty ⟨0, 1, 0⟩ ⟨0, 1⟩ rfl []
    (.accept ⟨⟨0, 0, 1⟩, .nop, 1, [], ⟨0, 1⟩⟩) ⟨rfl, by decide⟩
  revert hkeep
  decide

end

end Misc.Epaxos
