import Mathlib
import Misc.Epaxos.Cluster

namespace Misc.Epaxos
open Misc.Lib
set_option autoImplicit true

/-- What is agreed on for an instance. -/
structure Decision where
  I : InstanceId
  Y : Command
  Seq : UInt64
  Deps : List (Option InstanceId)

def Instance.decision (ins : Instance) : Decision := ⟨ins.I, ins.Y, ins.Seq, ins.Deps⟩

def AcceptReq.decision (req : AcceptReq) : Decision := ⟨req.I, req.Y, req.Seq, req.Deps⟩

/-- The replica holds the instance committed, or one of its calls is about to commit it. -/
inductive Replica.Claims (rep : Replica) (d : Decision) : Prop
  | stored (ins : Instance) : rep.state.cmds d.I = some ins → ins.State = .committed →
      d = ⟨d.I, ins.Y, ins.Seq, ins.Deps⟩ → Claims rep d
  | call (k : Nat) (ins : Instance) : rep.calls k = .next (.commit ins) → d = ins.decision →
      Claims rep d

inductive Msg.Claims (d : Decision) : Msg → Prop
  | commit (src : UInt64) (req : CommitReq) : d = req.decision → Claims d (.commit src req)
  | prepared (src who : UInt64) (req : PrepareReq) (resp : PrepareResp) (cmd : PreparedCmd) :
      resp.Cmd = some cmd → cmd.State = .committed → d = ⟨req.I, cmd.Y, cmd.Seq, cmd.Deps⟩ →
      Claims d (.prepared src who req resp)

namespace Replica

/-- What a step newly claims: what a message says, or the outcome of a phase. -/
inductive Decides (ep : Epaxos) (lib : Litu) (rep : Replica) (d : Decision) : Act → Prop
  | commit (req : CommitReq) : d = req.decision → Decides ep lib rep d (.commit req)
  | fast (k : Nat) (results : List (Result PreAcceptResp)) (ins new : Instance) :
      rep.calls k = .preAccepting ins →
      preAccepted ep lib ins (results.map (Option.map Prod.snd)) = some (.commit new) →
        d = new.decision →
      Decides ep lib rep d (.preAccepts k results)
  | slow (k : Nat) (results : List (Result AcceptResp)) (ins new : Instance) :
      rep.calls k = .accepting ins →
      accepted ep ins (results.map (Option.map Prod.snd)) = .commit new →
      Decides ep lib rep d (.accepts k results)
  | recovered (k : Nat) (results : List (Result PrepareResp × Bool)) (i : InstanceId)
      (nextBallot : BallotNumber) (who : UInt64) (resp : PrepareResp) (cmd : PreparedCmd) :
      rep.calls k = .preparing i nextBallot → some (who, resp) ∈ results.map Prod.fst →
      resp.Cmd = some cmd → cmd.State = .committed → d = ⟨i, cmd.Y, cmd.Seq, cmd.Deps⟩ →
      Decides ep lib rep d (.prepares k results)

section
variable {ep : Epaxos} {lib : Litu} {rep rep' : Replica} {a : Act} {d : Decision} {k : Nat}

theorem Claims.step (h : step ep lib rep a = some rep') (hf : rep.Fresh) (hd : rep'.Claims d) :
    rep.Claims d ∨ rep.Decides ep lib d a := by
  cases hd with
  | stored new hnew hc hd =>
    obtain ⟨ins, hst, heq⟩ | ⟨-, heq⟩ := state_step h
    · rw [heq] at hnew
      by_cases hi : d.I = ins.I
      · have hself := storeCmd_self rep.state ins
        rw [← hi] at hself
        cases hself.symm.trans hnew
        rw [hi] at hd
        cases hst with
        | accept | acceptPhase => cases hc
        | preAccept req _ hins =>
          obtain ⟨seq, deps, rfl⟩ := preAccepted_attrs hins
          cases hc
        | commit req => exact .inr (.commit req hd)
        | phase1 k _ hk =>
          rw [hf k _ hk] at hc
          cases hc
        | commitPhase k ins hk => exact .inl (.call k ins hk hd)
      · exact .inl (.stored new ((storeCmd_of_ne rep.state hi).symm.trans hnew) hc hd)
    · have hcmds : rep'.state.cmds = rep.state.cmds := by
        obtain heq | ⟨k, y, -, heq⟩ := heq
        · rw [heq]
        · rw [heq]
          rfl
      exact .inl (.stored new (hcmds ▸ hnew) hc hd)
  | call k new hk hd =>
    rcases calls_step h k with ⟨-, heq⟩ | ⟨-, ht⟩
    · exact .inl (.call k new (heq ▸ hk) hd)
    · rw [hk] at ht
      generalize hn : Pc.next (.commit new) = pc at ht
      cases ht with
      | preAccepts results ins n hins hnext =>
        cases hn
        exact .inr (.fast k results ins new hins hnext hd)
      | accepts results ins hins =>
        injection hn with hn
        exact .inr (.slow k results ins new hins hn.symm)
      | prepares results i nextBallot n hi hp =>
        injection hn with hn
        subst hn
        obtain heq | ⟨resp, cmd, hresp, hcmd, ⟨heq, hs⟩ | heq | ⟨heq, -⟩⟩ := prepared_cases hp
        all_goals cases heq
        rw [List.map_map] at hresp
        obtain ⟨p, hp, hmap⟩ := List.mem_map.1 hresp
        obtain ⟨q, hq, rfl⟩ := Option.map_eq_some_iff.1 hmap
        exact .inr (.recovered k results i nextBallot q.1 q.2 cmd hi
          (List.mem_map.2 ⟨p, hp, hq⟩) hcmd hs hd)
      | request | recover | interf | phase1 | accept | commit | stop => cases hn

end

/-- The instance that a call of `commitCmd` has not decided yet. -/
def Undecided (r : UInt64) (i : InstanceId) : Pc → Prop
  | .interf _ idx => i = ⟨r, idx⟩
  | .next (.phase1 ins) | .preAccepting ins => i = ins.I
  | _ => False

section
variable {ep : Epaxos} {lib : Litu} {rep rep' : Replica} {a : Act} {i : InstanceId} {k : Nat}

theorem undecided_step (h : step ep lib rep a = some rep')
    (hu : Undecided ep.rid i (rep'.calls k)) :
    Undecided ep.rid i (rep.calls k) ∧ (∀ results, a ≠ .preAccepts k results) ∧
        (∀ y, a ≠ .request k y) ∨
      (∃ y, a = .request k y) ∧ i = ⟨ep.rid, rep.state.instanceIdx + 1⟩ ∨
      (∃ i nextBallot, rep.calls k = .preparing i nextBallot) ∧ ∀ y, a ≠ .request k y := by
  rcases calls_step h k with ⟨ha, heq⟩ | ⟨-, ht⟩
  · rw [heq] at hu
    left
    refine ⟨hu, ?_, ?_⟩
    · rintro results rfl
      exact ha rfl
    · rintro y rfl
      exact ha rfl
  · generalize rep'.calls k = pc at hu ht
    cases ht with
    | request y _ => exact .inr (.inl ⟨⟨y, rfl⟩, hu⟩)
    | interf y idx hk | phase1 ins hk =>
      left
      rw [hk]
      exact ⟨hu, nofun, nofun⟩
    | preAccepts results ins next _ hnext =>
      cases next with
      | phase1 new => exact absurd hnext (preAccepted_ne_phase1 _ new)
      | accept new | commit new | stop => cases hu
    | accepts results ins _ =>
      obtain hs | ⟨new, -, hs⟩ := accepted_cases ep ins (results.map (Option.map Prod.snd))
      · rw [hs] at hu
        cases hu
      · rw [hs] at hu
        cases hu
    | prepares results d nextBallot n hk _ => exact .inr (.inr ⟨⟨d, nextBallot, hk⟩, nofun⟩)
    | recover | accept | commit | stop => cases hu

theorem preparing_step {nextBallot : BallotNumber} (h : step ep lib rep a = some rep')
    (hp : rep'.calls k = .preparing i nextBallot) :
    rep.calls k = .preparing i nextBallot ∧ a.call ≠ some k ∨ a = .recover k i := by
  rcases calls_step h k with ⟨ha, heq⟩ | ⟨-, ht⟩
  · exact .inl ⟨heq ▸ hp, ha⟩
  · rw [hp] at ht
    cases ht with
    | recover b _ _ => exact .inr rfl

end

end Replica

def Next.isCommit : Next → Bool
  | .commit _ => true
  | _ => false

namespace Cluster

def Claims (c : Cluster) (d : Decision) : Prop :=
  (∃ r, (c.reps r).Claims d) ∨ ∃ m ∈ c.soup, m.Claims d

/-- A call of `phase1` that `explicitPrepare` makes does not take the fast path, and the numbers
of instances do not wrap around. -/
def SlowRecovery (cfg : Config) (lib : Litu) (c : Cluster) (mv : Move) : Prop :=
  match mv.act with
  | .preAccepts k results =>
    match (c.reps mv.r).calls k with
    | .preAccepting ins => c.recovery mv.r k = true →
        (preAccepted (cfg.ep mv.r) lib ins (results.map (Option.map Prod.snd))).map
          Next.isCommit ≠ some true
    | _ => True
  | .request _ _ => (c.reps mv.r).state.instanceIdx.toNat + 1 < UInt64.size
  | _ => True

instance (cfg : Config) (lib : Litu) (c : Cluster) (mv : Move) :
    Decidable (SlowRecovery cfg lib c mv) := by
  rcases mv with ⟨r, src, ⟨⟩⟩ <;> dsimp only [SlowRecovery]
  case preAccepts k results => rcases (c.reps r).calls k with ⟨⟩ <;> infer_instance
  all_goals infer_instance

/-- All that is committed for an instance is the same, and a call of `commitCmd` that is still
undecided is the only one for its instance. -/
structure Agreed (c : Cluster) : Prop where
  unique : ∀ d d', c.Claims d → c.Claims d' → d.I = d'.I → d = d'
  undecided : ∀ r k i, c.recovery r k = false → Replica.Undecided r i ((c.reps r).calls k) →
    i.Rid = r ∧ i.Index ≤ (c.reps r).state.instanceIdx ∧ ∀ d, c.Claims d → d.I ≠ i
  single : ∀ r k k' i, c.recovery r k = false → c.recovery r k' = false →
    Replica.Undecided r i ((c.reps r).calls k) →
      Replica.Undecided r i ((c.reps r).calls k') → k = k'
  old : ∀ d, c.Claims d → d.I.Index ≤ (c.reps d.I.Rid).state.instanceIdx
  preparing : ∀ r k i b, (c.reps r).calls k = .preparing i b → c.recovery r k = true
  fresh : ∀ r, (c.reps r).Fresh
  denied : ∀ src who req resp, .accepted src who req resp ∈ c.soup → resp.Ok = false

structure Fast (cfg : Config) (lib : Litu) (c : Cluster) (mv : Move) (k : Nat)
    (results : List (Result PreAcceptResp)) (ins new : Instance) : Prop where
  act : mv.act = .preAccepts k results
  call : (c.reps mv.r).calls k = .preAccepting ins
  commit : preAccepted (cfg.ep mv.r) lib ins (results.map (Option.map Prod.snd)) =
    some (.commit new)

section
variable {cfg : Config} {lib : Litu} {c c' : Cluster} {mv : Move} {d : Decision} {r : UInt64}
  {rep : Replica} {k : Nat}

theorem Claims.of_sends {m : Msg} (hm : m ∈ c.sends cfg lib mv) (hd : m.Claims d) :
    (c.reps mv.r).Claims d := by
  cases Sends.of_mem hm with
  | preAccepted | accepted | prepare | preAccept | accept => cases hd
  | commit k ins _ hk =>
    cases hd with
    | commit _ _ hd => exact .call k ins hk hd
  | prepared req _ =>
    cases hd with
    | prepared _ _ _ _ cmd hcmd hs hd =>
      rw [State.prepare, State.getCmd] at hcmd
      split at hcmd
      · next curr hcurr =>
        split_ifs at hcmd
        cases hcmd
        exact .stored curr (by rw [hd]; exact hcurr) hs (by rw [hd])
      · cases hcmd
        cases hs

theorem accept_denied (s : State) (req : AcceptReq) : (s.accept req).2.Ok = false := by
  rw [State.accept]
  split
  · split_ifs <;> rfl
  · rfl

theorem denied_of_sends {src who : UInt64} {req : AcceptReq} {resp : AcceptResp}
    (hm : .accepted src who req resp ∈ c.sends cfg lib mv) : resp.Ok = false := by
  cases Sends.of_mem hm with
  | accepted _ _ => exact accept_denied _ _

theorem accepted_stop {results : List (Option AcceptResp)} {ins : Instance} {ep : Epaxos}
    (hn : 1 < ep.peers) (h : ∀ resp, some resp ∈ results → resp.Ok = false) :
    Misc.Epaxos.accepted ep ins results = .stop := by
  have hvotes : ∀ ins, (accepting ep results ins 1).2 = 1 := by
    induction results with
    | nil =>
      intro ins
      rfl
    | cons result results ih =>
      have ih := ih fun resp hm => h resp (List.mem_cons_of_mem _ hm)
      intro ins
      cases result with
      | none => exact ih ins
      | some resp =>
        rw [accepting, if_neg]
        · exact ih _
        · rw [h resp List.mem_cons_self]
          exact Bool.false_ne_true
  rw [Misc.Epaxos.accepted]
  dsimp only
  rw [hvotes, if_pos]
  rw [Epaxos.majorityQuorum]
  omega

/-- The replies of `Accept` are all denied, so that `paxosAcceptPhase` returns `false`. -/
theorem accepts_stop {results : List (Result AcceptResp)} {ins : Instance}
    (h : step cfg lib c mv = some c') (hn : 1 < cfg.n)
    (hdenied : ∀ src who req resp, .accepted src who req resp ∈ c.soup → resp.Ok = false)
    (ha : mv.act = .accepts k results) (hk : (c.reps mv.r).calls k = .accepting ins) :
    accepted (cfg.ep mv.r) ins (results.map (Option.map Prod.snd)) = .stop := by
  obtain ⟨-, hrec, -⟩ := step_eq h
  apply accepted_stop hn
  intro resp hresp
  obtain ⟨result, hresult, hmap⟩ := List.mem_map.1 hresp
  obtain ⟨p, rfl, rfl⟩ := Option.map_eq_some_iff.1 hmap
  obtain ⟨-, -, hm⟩ := (hrec.accepts ha hk).2.2 p (List.mem_filterMap.2 ⟨_, hresult, rfl⟩)
  exact hdenied _ _ _ _ hm

/-- As long as `paxosAcceptPhase` does not commit, what is claimed after a step has been claimed
before it or is decided on the fast path. -/
theorem Claims.step (h : step cfg lib c mv = some c') (hf : ∀ r, (c.reps r).Fresh)
    (hslow : ∀ k results ins new, mv.act = .accepts k results →
      (c.reps mv.r).calls k = .accepting ins →
      accepted (cfg.ep mv.r) ins (results.map (Option.map Prod.snd)) ≠ .commit new)
    (hcl : c'.Claims d) : c.Claims d ∨
      ∃ k results ins new, Fast cfg lib c mv k results ins new ∧ d = new.decision := by
  rcases hcl with ⟨r, hcl⟩ | ⟨m, hm, hcl⟩
  · obtain ⟨-, heq⟩ | ⟨rfl, hstep⟩ := reps_step h r
    · exact .inl (.inl ⟨r, heq ▸ hcl⟩)
    · rcases hcl.step hstep (hf mv.r) with hcl | hdec
      · exact .inl (.inl ⟨mv.r, hcl⟩)
      · obtain ⟨-, hrec, -⟩ := step_eq h
        generalize ha : mv.act = a at hdec
        cases hdec with
        | commit req hd =>
          rw [Receives, ha] at hrec
          exact .inl (.inr ⟨_, hrec.2, .commit mv.src req hd⟩)
        | fast k results ins new hk hnew hd =>
          exact .inr ⟨k, results, ins, new, ⟨ha, hk, hnew⟩, hd⟩
        | slow k results ins new hk hnew => exact absurd hnew (hslow k results ins new ha hk)
        | recovered k results i nextBallot who resp cmd hk hresp hcmd hs hd =>
          obtain ⟨-, hm⟩ := (hrec.prepares ha hk).2.2 (who, resp)
            (List.mem_filterMap.2 ⟨_, hresp, rfl⟩)
          exact .inl (.inr ⟨_, hm, .prepared _ _ _ resp cmd hcmd hs hd⟩)
  · rw [soup_step h] at hm
    rcases List.mem_append.1 hm with hm | hm
    · exact .inl (.inr ⟨m, hm, hcl⟩)
    · exact .inl (.inl ⟨mv.r, Claims.of_sends hm hcl⟩)

theorem marks_of_ne (h : r ≠ mv.r ∨ mv.act.call ≠ some k) : c.marks mv r k = c.recovery r k := by
  have hupdate {j : Nat} {b : Bool} (hj : r ≠ mv.r ∨ j ≠ k) :
      Function.update c.recovery mv.r (Function.update (c.recovery mv.r) j b) r k =
        c.recovery r k := by
    by_cases hr : r = mv.r
    · rw [hr, Function.update_self, Function.update_of_ne]
      exact (hj.resolve_left fun hne => hne hr).symm
    · rw [Function.update_of_ne hr]
  cases hact : mv.act with
  | request j y | recover j i =>
    rw [marks, hact]
    rw [hact] at h
    exact hupdate (h.imp_right fun hne he => hne (congrArg some he))
  | _ => rw [marks, hact]

theorem marks_recover {i : InstanceId} (h : mv.act = .recover k i) :
    c.marks mv mv.r k = true := by
  rw [marks, h]
  dsimp only
  rw [Function.update_self, Function.update_self]

theorem marks_false (h : c.marks mv r k = false) (ha : r = mv.r → ∀ y, mv.act ≠ .request k y) :
    c.recovery r k = false := by
  by_cases hr : r = mv.r
  · by_cases hk : mv.act.call = some k
    · cases hact : mv.act with
      | request j y =>
        rw [hact] at hk
        cases hk
        exact absurd hact (ha hr y)
      | recover j i =>
        rw [hact] at hk
        cases hk
        rw [hr, marks_recover hact] at h
        cases h
      | _ =>
        rw [marks, hact] at h
        exact h
    · rwa [marks_of_ne (.inr hk)] at h
  · rwa [marks_of_ne (.inl hr)] at h

theorem undecided_step {i : InstanceId} (h : step cfg lib c mv = some c') (hinv : c.Agreed)
    (hm : c'.recovery r k = false) (hu : Replica.Undecided r i ((c'.reps r).calls k)) :
    c.recovery r k = false ∧ Replica.Undecided r i ((c.reps r).calls k) ∧
        (r = mv.r → ∀ results, mv.act ≠ .preAccepts k results) ∨
      r = mv.r ∧ (∃ y, mv.act = .request k y) ∧ i = ⟨r, (c.reps r).state.instanceIdx + 1⟩ := by
  rw [recovery_step h] at hm
  obtain ⟨hr, heq⟩ | ⟨rfl, hstep⟩ := reps_step h r
  · rw [heq] at hu
    exact .inl ⟨marks_false hm fun he => absurd he hr, hu, fun he => absurd he hr⟩
  · obtain ⟨hu, ha, hreq⟩ | ⟨hreq, hi⟩ | ⟨⟨d, b, hp⟩, hreq⟩ :=
      @Replica.undecided_step (cfg.ep mv.r) _ _ _ _ _ _ hstep hu
    · exact .inl ⟨marks_false hm fun _ => hreq, hu, fun _ => ha⟩
    · exact .inr ⟨rfl, hreq, hi⟩
    · have hfalse := marks_false hm fun _ => hreq
      rw [hinv.preparing _ _ _ _ hp] at hfalse
      cases hfalse

theorem lt_next {y : Command} (hok : c.SlowRecovery cfg lib mv) (ha : mv.act = .request k y) :
    (c.reps mv.r).state.instanceIdx < (c.reps mv.r).state.instanceIdx + 1 := by
  rw [SlowRecovery, ha] at hok
  rw [UInt64.lt_iff_toNat_lt, UInt64.toNat_add, UInt64.toNat_one, Nat.mod_eq_of_lt hok]
  exact Nat.lt_succ_self _

theorem instanceIdx_eq {y : Command} (h : step cfg lib c mv = some c')
    (ha : mv.act = .request k y) :
    (c'.reps mv.r).state.instanceIdx = (c.reps mv.r).state.instanceIdx + 1 := by
  obtain ⟨hr, -⟩ | ⟨-, hstep⟩ := reps_step h mv.r
  · exact absurd rfl hr
  · rw [ha] at hstep
    exact Replica.instanceIdx_request hstep

theorem instanceIdx_le (h : step cfg lib c mv = some c')
    (hok : c.SlowRecovery cfg lib mv) (r : UInt64) :
    (c.reps r).state.instanceIdx ≤ (c'.reps r).state.instanceIdx := by
  obtain ⟨-, heq⟩ | ⟨rfl, hstep⟩ := reps_step h r
  · rw [heq]
    exact UInt64.le_refl _
  · obtain heq | ⟨j, y, ha⟩ := Replica.instanceIdx_step hstep
    · rw [heq]
      exact UInt64.le_refl _
    · rw [instanceIdx_eq h ha]
      exact UInt64.le_of_lt (lt_next hok ha)

theorem Fast.undecided {results : List (Result PreAcceptResp)} {ins new : Instance}
    (h : Fast cfg lib c mv k results ins new) (hok : c.SlowRecovery cfg lib mv) :
    c.recovery mv.r k = false ∧ Replica.Undecided mv.r new.I ((c.reps mv.r).calls k) := by
  constructor
  · rw [SlowRecovery, h.act] at hok
    dsimp only at hok
    rw [h.call] at hok
    dsimp only at hok
    rw [h.commit] at hok
    rw [← Bool.not_eq_true]
    intro hm
    exact hok hm rfl
  · rw [h.call]
    exact (preAccepted_ins h.commit rfl).1

theorem Fast.unique {k' : Nat} {results results' : List (Result PreAcceptResp)}
    {ins ins' new new' : Instance} (h : Fast cfg lib c mv k results ins new)
    (h' : Fast cfg lib c mv k' results' ins' new') : new = new' := by
  cases h.act.symm.trans h'.act
  cases h.call.symm.trans h'.call
  cases h.commit.symm.trans h'.commit
  rfl

theorem Agreed.new (hinv : c.Agreed) (h : step cfg lib c mv = some c') (hn : 1 < cfg.n)
    (hok : c.SlowRecovery cfg lib mv) (hd : c'.Claims d) : c.Claims d ∨
      ∃ k results ins new, Fast cfg lib c mv k results ins new ∧ d = new.decision ∧
        d.I.Rid = mv.r ∧ d.I.Index ≤ (c.reps mv.r).state.instanceIdx ∧
        ∀ d', c.Claims d' → d'.I ≠ d.I := by
  have hslow (k results ins new) (ha : mv.act = .accepts k results)
      (hk : (c.reps mv.r).calls k = .accepting ins) :
      accepted (cfg.ep mv.r) ins (results.map (Option.map Prod.snd)) ≠ .commit new := by
    rw [accepts_stop h hn hinv.denied ha hk]
    exact nofun
  rcases hd.step h hinv.fresh hslow with hd | ⟨k, results, ins, new, hf, rfl⟩
  · exact .inl hd
  · obtain ⟨hm, hu⟩ := hf.undecided hok
    exact .inr ⟨k, results, ins, new, hf, rfl, hinv.undecided _ _ _ hm hu⟩

theorem Agreed.undecided_step (hinv : c.Agreed)
    (h : step cfg lib c mv = some c') (hn : 1 < cfg.n)
    (hok : c.SlowRecovery cfg lib mv) {i : InstanceId} (hm : c'.recovery r k = false)
    (hu : Replica.Undecided r i ((c'.reps r).calls k)) :
    i.Rid = r ∧ i.Index ≤ (c'.reps r).state.instanceIdx ∧ ∀ d, c'.Claims d → d.I ≠ i := by
  obtain ⟨hm, hu, ha⟩ | ⟨rfl, ⟨y, ha⟩, rfl⟩ := Cluster.undecided_step h hinv hm hu
  · obtain ⟨hrid, hidx, hnone⟩ := hinv.undecided r k i hm hu
    refine ⟨hrid, UInt64.le_trans hidx (instanceIdx_le h hok r), ?_⟩
    rintro d hd rfl
    rcases hinv.new h hn hok hd with hd | ⟨j, results, ins, new, hf, rfl, hr, -⟩
    · exact hnone d hd rfl
    · obtain ⟨hmj, huj⟩ := hf.undecided hok
      have hr := hrid.symm.trans hr
      subst hr
      have hjk := hinv.single _ _ _ _ hm hmj hu huj
      subst hjk
      exact ha rfl _ hf.act
  · refine ⟨rfl, ?_, ?_⟩
    · rw [instanceIdx_eq h ha]
      exact UInt64.le_refl _
    · intro d hd he
      rcases hinv.new h hn hok hd with hd | ⟨_, _, _, _, hf, -⟩
      · have hold := hinv.old d hd
        rw [he] at hold
        exact UInt64.not_le.2 (lt_next hok ha) hold
      · cases ha.symm.trans hf.act

theorem Agreed.step (hinv : c.Agreed) (h : step cfg lib c mv = some c') (hn : 1 < cfg.n)
    (hok : c.SlowRecovery cfg lib mv) : c'.Agreed where
  unique d d' hd hd' he := by
    rcases hinv.new h hn hok hd with hd | ⟨_, _, _, new, hf, rfl, -, -, hnone⟩
    · rcases hinv.new h hn hok hd' with hd' | ⟨_, _, _, new', hf', rfl, -, -, hnone⟩
      · exact hinv.unique d d' hd hd' he
      · exact absurd he (hnone d hd)
    · rcases hinv.new h hn hok hd' with hd' | ⟨_, _, _, new', hf', rfl, -⟩
      · exact absurd he.symm (hnone d' hd')
      · rw [hf.unique hf']
  undecided r k i hm hu := hinv.undecided_step h hn hok hm hu
  single r k k' i hm hm' hu hu' := by
    have hlate {j y} (hr : r = mv.r) (ha : mv.act = .request j y) :
        ¬ (c.reps r).state.instanceIdx + 1 ≤ (c.reps r).state.instanceIdx := by
      rw [hr]
      exact UInt64.not_le.2 (lt_next hok ha)
    obtain ⟨hm, hu, -⟩ | ⟨hr, ⟨y, ha⟩, rfl⟩ := Cluster.undecided_step h hinv hm hu
    · obtain ⟨hm', hu', -⟩ | ⟨hr, ⟨y, ha⟩, rfl⟩ := Cluster.undecided_step h hinv hm' hu'
      · exact hinv.single r k k' i hm hm' hu hu'
      · exact absurd (hinv.undecided _ _ _ hm hu).2.1 (hlate hr ha)
    · obtain ⟨hm', hu', -⟩ | ⟨-, ⟨y', ha'⟩, -⟩ := Cluster.undecided_step h hinv hm' hu'
      · exact absurd (hinv.undecided _ _ _ hm' hu').2.1 (hlate hr ha)
      · cases ha.symm.trans ha'
        rfl
  old d hd := by
    rcases hinv.new h hn hok hd with hd | ⟨_, _, _, new, hf, rfl, hr, hidx, -⟩
    · exact UInt64.le_trans (hinv.old d hd) (instanceIdx_le h hok _)
    · rw [hr]
      exact UInt64.le_trans hidx (instanceIdx_le h hok _)
  preparing r k i b hp := by
    rw [recovery_step h]
    obtain ⟨hr, heq⟩ | ⟨rfl, hstep⟩ := reps_step h r
    · rw [marks_of_ne (.inl hr)]
      exact hinv.preparing r k i b (heq ▸ hp)
    · obtain ⟨hp, ha⟩ | ha := Replica.preparing_step hstep hp
      · rw [marks_of_ne (.inr ha)]
        exact hinv.preparing _ k i b hp
      · exact marks_recover ha
  fresh r := by
    obtain ⟨-, heq⟩ | ⟨rfl, hstep⟩ := reps_step h r
    · rw [heq]
      exact hinv.fresh r
    · exact (hinv.fresh mv.r).step hstep
  denied src who req resp hm := by
    rw [soup_step h] at hm
    rcases List.mem_append.1 hm with hm | hm
    · exact hinv.denied src who req resp hm
    · exact denied_of_sends hm

theorem not_claims_start (d : Decision) : ¬ start.Claims d := by
  rintro (⟨r, ⟨ins, hins⟩ | ⟨k, ins, hk⟩⟩ | ⟨m, hm, -⟩)
  · cases hins
  · cases hk
  · cases hm

theorem Agreed.start : start.Agreed where
  unique d _ hd := absurd hd (not_claims_start d)
  undecided _ _ _ _ hu := nomatch hu
  single _ _ _ _ _ _ hu := nomatch hu
  old d hd := absurd hd (not_claims_start d)
  preparing _ _ _ _ hp := nomatch hp
  fresh _ _ _ hk := nomatch hk
  denied _ _ _ _ hm := nomatch hm

/-- As long as no recovery takes the fast path, replicas that hold an instance committed
agree. -/
theorem agreement (cfg : Config) (lib : Litu) (c : Cluster)
    (h : (machine cfg lib).ReachIf (SlowRecovery cfg lib) c) (r r' : UInt64) (i : InstanceId)
    (ins ins' : Instance) (hr : r.toNat < cfg.n) (hr' : r'.toNat < cfg.n)
    (hins : (c.reps r).state.cmds i = some ins) (hins' : (c.reps r').state.cmds i = some ins')
    (hc : ins.State = .committed) (hc' : ins'.State = .committed) :
    ins.Y = ins'.Y ∧ ins.Seq = ins'.Seq ∧ ins.Deps = ins'.Deps := by
  by_cases hn : 1 < cfg.n
  · have hinv : c.Agreed := h.invariant (fun s hs => hs ▸ Agreed.start)
      fun s mv t hs hok hstep => hs.step hstep hn hok
    have heq := hinv.unique ⟨i, ins.Y, ins.Seq, ins.Deps⟩ ⟨i, ins'.Y, ins'.Seq, ins'.Deps⟩
      (.inl ⟨r, .stored ins hins hc rfl⟩) (.inl ⟨r', .stored ins' hins' hc' rfl⟩) rfl
    injection heq with _ hy hseq hdeps
    exact ⟨hy, hseq, hdeps⟩
  · have heq : r = r' := UInt64.toNat_inj.1 (by omega)
    subst heq
    cases hins.symm.trans hins'
    exact ⟨rfl, rfl, rfl⟩

def three : Config := ⟨3, 1⟩

def write : AcceptReq := ⟨⟨1, 0, 0⟩, Replica.put1, 1, [], ⟨0, 1⟩⟩

def fastCommit : List Move :=
  [⟨0, 0, .request 0 Replica.put1⟩, ⟨0, 0, .go 0⟩, ⟨0, 0, .go 0⟩, ⟨1, 0, .preAccept write⟩,
    ⟨0, 0,
      .preAccepts 0 [some (1, ⟨true, write.Ballot, some write.Y, 1, [], some write.I⟩), none]⟩,
    ⟨0, 0, .go 0⟩]

theorem agreement_fast :
    ∃ c ins ins', (machine three .plain).ReachIf (SlowRecovery three .plain) c ∧
    (c.reps 0).state.cmds ⟨0, 1⟩ = some ins ∧ (c.reps 1).state.cmds ⟨0, 1⟩ = some ins' ∧
    ins.State = .committed ∧ ins'.State = .committed ∧
    ins.Y = ins'.Y ∧ ins.Seq = ins'.Seq ∧ ins.Deps = ins'.Deps :=
  have h := ⟨start, fastCommit ++ [⟨1, 0, .commit write⟩], rfl, .of_execIf rfl⟩
  ⟨_, _, _, h, rfl, rfl, rfl, rfl,
    agreement three .plain _ h 0 1 ⟨0, 1⟩ _ _ (by decide) (by decide) rfl rfl rfl rfl⟩

/-- Then the third replica recovers the instance. The reply of the second has a higher ballot
than its own and is left out, so it proposes a no-op, which takes the fast path as well. -/
def recoverNop : List Move :=
  [⟨2, 2, .recover 0 ⟨0, 1⟩⟩, ⟨2, 2, .prepare ⟨⟨1, 1, 2⟩, ⟨0, 1⟩⟩⟩,
    ⟨1, 2, .prepare ⟨⟨1, 1, 2⟩, ⟨0, 1⟩⟩⟩, ⟨2, 2, .prepares 0
      [(some (2, ⟨true, .zero, some ⟨0, 1⟩, some ⟨.nop, 0, [], .init⟩⟩), false),
        (some (1, ⟨true, ⟨1, 0, 0⟩, some ⟨0, 1⟩, some ⟨Replica.put1, 1, [], .preAccepted⟩⟩),
          true),
        (none, false)]⟩,
    ⟨2, 2, .go 0⟩, ⟨1, 2, .preAccept ⟨⟨1, 1, 2⟩, .nop, 0, [], ⟨0, 1⟩⟩⟩,
    ⟨2, 2, .preAccepts 0 [some (1, ⟨true, ⟨1, 1, 2⟩, some .nop, 1, [], some ⟨0, 1⟩⟩), none]⟩,
    ⟨2, 2, .go 0⟩]

theorem disagreement : ¬ ∀ (cfg : Config) (lib : Litu) (c : Cluster), (machine cfg lib).Reach c →
    ∀ (r r' : UInt64) (i : InstanceId) (ins ins' : Instance), r.toNat < cfg.n →
      r'.toNat < cfg.n →
      (c.reps r).state.cmds i = some ins → (c.reps r').state.cmds i = some ins' →
      ins.State = .committed → ins'.State = .committed →
      ins.Y = ins'.Y ∧ ins.Seq = ins'.Seq ∧ ins.Deps = ins'.Deps := by
  intro h
  have hy :=
    (h three .plain _ ⟨start, fastCommit ++ recoverNop, rfl, .of_exec rfl⟩ 0 2 ⟨0, 1⟩ _ _
    (by decide) (by decide) rfl rfl rfl rfl).1
  revert hy
  decide

end

end Cluster

end Misc.Epaxos
