import Mathlib.Data.List.Dedup
import Misc.Epaxos.Agreement
import Misc.Epaxos.Redelivery

namespace Misc.Epaxos
open Misc.Lib
set_option autoImplicit true

/-! What is told of an instance in a run without recovery, in which only its leader
proposes it. -/

deriving instance DecidableEq, Repr for Decision

/-- The replica that has pre-accepted an instance when it sends the message, and with what. -/
def Msg.vote : Msg → Option (UInt64 × Decision)
  | .preAccept src req => some (src, req.decision)
  | .preAccepted _ who req resp =>
    if resp.Ok then some (who, ⟨req.I, req.Y, resp.Seq, resp.Deps⟩) else none
  | _ => none

def Msg.commits : Msg → Option Decision
  | .commit _ req => some req.decision
  | _ => none

/-- What some replica stores for an instance. -/
def Msg.tells : Msg → Option Decision
  | .accept _ req | .commit _ req => some req.decision
  | m => m.vote.map Prod.snd

def Msg.About (req : PreAcceptReq) : Msg → Prop
  | .preAccept _ req' | .preAccepted _ _ req' _ => req' = req
  | _ => False

def Pc.own (r : UInt64) : Pc → Option InstanceId
  | .interf _ idx => some ⟨r, idx⟩
  | .next n => n.ins.map Instance.I
  | .preAccepting ins | .accepting ins => some ins.I
  | .idle | .preparing _ _ => none

theorem Msg.tells_of_vote {m : Msg} (h : m.vote = some (r, d)) : m.tells = some d := by
  cases m with
  | preAccept src req =>
    cases h
    rfl
  | preAccepted src who req resp =>
    rw [tells, h]
    · rfl
    all_goals exact nofun
  | accept | commit | prepare | accepted | prepared => cases h

theorem Msg.tells_of_commits {m : Msg} (h : m.commits = some d) : m.tells = some d := by
  cases m with
  | commit src req => exact h
  | preAccept | preAccepted | accept | prepare | accepted | prepared => cases h

theorem Msg.preAccepted_tells {src who : UInt64} {req : PreAcceptReq} {resp : PreAcceptResp}
    {d : Decision} : (Msg.preAccepted src who req resp).tells = some d ↔
      resp.Ok = true ∧ d = ⟨req.I, req.Y, resp.Seq, resp.Deps⟩ := by
  rw [tells, vote]
  · split_ifs with hok
    · rw [Option.map_some, Option.some.injEq, and_iff_right hok, eq_comm]
    · exact ⟨nofun, fun h => absurd h.1 hok⟩
  all_goals exact nofun

/-! ## Replies that are counted -/

section
variable {ep : Epaxos} {lib : Litu} {ins new : Instance} {results : List (Option PreAcceptResp)}

theorem counting_sublist (t : PreAccepting) :
    (counting ep lib results t).Sublist (results.filterMap id) := by
  induction results generalizing t with
  | nil => exact .slnil
  | cons result results ih =>
    cases result with
    | none => exact ih t
    | some resp =>
      rw [counting]
      change List.Sublist _ (resp :: results.filterMap id)
      split_ifs
      · cases t.count lib resp with
        | none => exact List.nil_sublist _
        | some t =>
          dsimp only
          split_ifs
          · exact (List.nil_sublist _).cons_cons resp
          · exact (ih t).cons_cons resp
      · exact (ih _).cons resp

theorem counting_ok (t : PreAccepting) : ∀ resp ∈ counting ep lib results t, resp.Ok = true := by
  induction results generalizing t with
  | nil => exact fun _ h => absurd h List.not_mem_nil
  | cons result results ih =>
    cases result with
    | none => exact ih t
    | some resp =>
      rw [counting]
      split_ifs with hok
      · cases t.count lib resp with
        | none => exact fun _ h => absurd h List.not_mem_nil
        | some t =>
          dsimp only
          split_ifs
          · exact List.forall_mem_singleton.2 hok
          · exact List.forall_mem_cons.2 ⟨hok, ih t⟩
      · exact ih _

theorem counted_sublist : (counted ep lib ins results).Sublist (results.filterMap id) := by
  rw [counted]
  cases PreAccepting.start lib ins with
  | none => exact List.nil_sublist _
  | some t => exact counting_sublist t

theorem counted_ok : ∀ resp ∈ counted ep lib ins results, resp.Ok = true := by
  rw [counted]
  cases PreAccepting.start lib ins with
  | none => exact fun _ h => absurd h List.not_mem_nil
  | some t => exact counting_ok t

theorem SameDeps.eq_of_short {deps : List (Option InstanceId)} {resp : PreAcceptResp}
    (h : SameDeps lib deps resp) (hshort : deps.length ≤ 1) : resp.Deps = deps := by
  obtain ⟨ids, hdeps, hresp⟩ := sameDeps_iff.1 h
  have hlen := ((sortInstanceIds_perm hresp).symm.trans (sortInstanceIds_perm hdeps)).length_eq
  rw [sortInstanceIds_short hshort, Option.some_inj] at hdeps
  rw [sortInstanceIds_short (hlen ▸ hshort), Option.some_inj] at hresp
  rw [hresp, hdeps]

/-- What the fast path commits has been proposed, and its counted replies have its
dependencies. -/
theorem fast_spec (h : preAccepted ep lib ins results = some (.commit new))
    (hshort : ins.Deps.length ≤ 1) :
    new.req = ins.req ∧ ep.fastPathQuorum ≤ (counted ep lib ins results).length + 1 ∧
      ∀ resp ∈ counted ep lib ins results, resp.Deps = ins.Deps := by
  obtain ⟨hI, hballot, hY⟩ := preAccepted_ins h rfl
  obtain ⟨t₀, t, h₀, ht, hnext⟩ := preAccepted_eq_some.1 h
  have hc := counts h₀ ht
  rw [PreAccepting.next] at hnext
  split_ifs at hnext with hfast
  obtain ⟨hvotes, hdiff⟩ := hfast
  rw [hc.votes] at hvotes
  injection hnext with hnew
  rw [PreAccepting.outcome, hdiff, if_neg Bool.false_ne_true] at hnew
  have hdeps := hc.deps
  rw [sortInstanceIds_short hshort, Option.some_inj] at hdeps
  refine ⟨?_, hvotes, ?_⟩
  · rw [Instance.req, Instance.req, hI, hballot, hY, ← hnew, hc.seq, hdeps]
  · intro resp hresp
    have hsame : SameDeps lib ins.Deps resp := by
      by_contra hs
      rw [hc.isDiff.2 ⟨resp, hresp, hs⟩] at hdiff
      cases hdiff
    exact hsame.eq_of_short hshort

theorem seq_le_of_preAccepted {next : Next} (h : preAccepted ep lib ins results = some next)
    (hnew : next.ins = some new) : ins.Seq ≤ new.Seq := by
  obtain ⟨t₀, t, h₀, ht, rfl⟩ := preAccepted_eq_some.1 h
  rw [next_ins hnew, outcome_seq (counts h₀ ht)]
  exact .inl (UInt64.le_refl _)

end

namespace Cluster

/-- The replicas that have pre-accepted the instance with just these dependencies. -/
def voters (c : Cluster) (ins : Instance) : List UInt64 :=
  (c.soup.filterMap fun m => m.vote.bind fun v =>
    if v.2.I = ins.I ∧ v.2.Deps = ins.Deps then some v.1 else none).dedup

/-- What is told of `b`, or of an instance that it depends on, does not hide `a`. -/
def Clear (c : Cluster) (a b : Decision) : Prop := ∀ m ∈ c.soup, ∀ t ∈ m.tells, a.Seq ≤ t.Seq →
  (t.I = b.I → a.Seq ≤ b.Seq) ∧
    (some t.I ∈ b.Deps → t.I = a.I ∨ ∃ m ∈ c.soup, ∃ d ∈ m.commits, d.I = t.I)

instance (c : Cluster) (a b : Decision) : Decidable (c.Clear a b) := by
  unfold Clear
  infer_instance

/-- If `i` is committed, then with this `Seq` it hides no committed instance of its key. -/
def HidesNone (c : Cluster) (i : InstanceId) (seq : UInt64) : Prop :=
  ∀ m ∈ c.soup, ∀ u ∈ m.commits, u.I = i → ∀ m ∈ c.soup, ∀ d ∈ m.commits, d.Y.Key = u.Y.Key →
    d.Seq ≤ seq → d.Seq ≤ u.Seq

instance (c : Cluster) (i : InstanceId) (seq : UInt64) : Decidable (c.HidesNone i seq) := by
  unfold HidesNone
  infer_instance

/-- Nobody recovers and no number ends. A leader stores its proposal before it pre-accepts an
instance of the key with a `Seq` as large, and a late `PreAccept` of a committed instance does
not hide another. What commits hides nothing that is committed and is not hidden by it, and most
replicas have pre-accepted it, which `phase1` itself sees to if their number is odd. -/
def Smooth (cfg : Config) (c : Cluster) (mv : Move) : Prop :=
  let rep := c.reps mv.r
  match mv.act with
  | .request _ _ => rep.state.instanceIdx + 1 ≠ 0
  | .recover _ _ => False
  | .preAccept req => (rep.state.getInterf req.Y.Key).1 + 1 ≠ 0 ∧
      ((∃ curr ∈ rep.state.getCmd req.I, curr.State = .committed) ∨
        c.HidesNone req.I (nextSeq (rep.state.getInterf req.Y.Key).1 req.Seq))
  | .go k =>
    match rep.calls k with
    | .interf y _ => (rep.state.getInterf y.Key).1 + 1 ≠ 0
    | .next (.phase1 ins) => ∀ m ∈ c.soup, ∀ v ∈ m.vote,
        v.1 = mv.r → v.2.Y.Key = ins.Y.Key → v.2.Seq < ins.Seq
    | .next (.commit ins) => (∀ m ∈ c.soup, ∀ d ∈ m.commits, d.Y.Key = ins.Y.Key →
          c.Clear d ins.decision ∧ c.Clear ins.decision d) ∧
        (cfg.n % 2 = 1 ∨ cfg.n < 2 * (c.voters ins).length)
    | _ => True
  | _ => True

instance (cfg : Config) (c : Cluster) (mv : Move) : Decidable (c.Smooth cfg mv) := by
  rcases mv with ⟨r, src, ⟨⟩⟩ <;> dsimp only [Smooth]
  case go k => rcases (c.reps r).calls k with _ | _ | ⟨⟨⟩⟩ | _ | _ | _ <;> infer_instance
  all_goals infer_instance

def Told (c : Cluster) (d : Decision) : Prop := ∃ m ∈ c.soup, m.tells = some d

def Voted (c : Cluster) (r : UInt64) (d : Decision) : Prop := ∃ m ∈ c.soup, m.vote = some (r, d)

def Done (c : Cluster) (d : Decision) : Prop := ∃ m ∈ c.soup, m.commits = some d

structure Below (c : Cluster) (ins : Instance) : Prop where
  pos : 0 < ins.Seq
  short : ins.Deps.length ≤ 1
  lower : ∀ w ∈ ins.Deps, ∃ d, c.Told d ∧ w = some d.I ∧ d.Y.Key = ins.Y.Key ∧ d.Seq < ins.Seq
  upper : ∀ seq, 0 < seq → seq < ins.Seq →
    ∃ d, c.Told d ∧ some d.I ∈ ins.Deps ∧ d.Y.Key = ins.Y.Key ∧ seq ≤ d.Seq

/-- The instance is proposed, and nothing but proposals and replies tell of it. -/
structure Proposed (c : Cluster) (r : UInt64) (ins : Instance) : Prop where
  below : c.Below ins
  sent : .preAccept r ins.req ∈ c.soup
  only : ∀ m ∈ c.soup, ∀ d, m.tells = some d → d.I = ins.I → m.About ins.req ∧ ins.Seq ≤ d.Seq

/-- What a call of `commitCmd` relies on. -/
def CallOk (cfg : Config) (c : Cluster) (r : UInt64) : Pc → Prop
  | .idle | .next .stop => True
  | .interf _ idx => ∀ d, c.Told d → d.I ≠ ⟨r, idx⟩
  | .next (.phase1 ins) => (∀ d, c.Told d → d.I ≠ ins.I) ∧ ins.State = .preAccepted ∧ c.Below ins
  | .preAccepting ins => c.Proposed r ins
  | .next (.commit ins) => c.Proposed r ins ∧ (cfg.n % 2 = 1 → cfg.n < 2 * (c.voters ins).length)
  | .next (.accept ins) | .accepting ins =>
    1 < cfg.n ∧ 0 < ins.Seq ∧ ∀ d, c.Done d → d.I ≠ ins.I
  | .preparing _ _ => False

/-- Each instance is worked on by one call of its own replica. -/
structure Calls (cfg : Config) (c : Cluster) : Prop where
  own : ∀ r k i, ((c.reps r).calls k).own r = some i →
    i.Rid = r ∧ i.Index ≤ (c.reps r).state.instanceIdx
  single : ∀ r k k' i, ((c.reps r).calls k).own r = some i →
    ((c.reps r).calls k').own r = some i → k = k'
  ok : ∀ r k, c.CallOk cfg r ((c.reps r).calls k)
  old : ∀ d, c.Told d → d.I.Index ≤ (c.reps d.I.Rid).state.instanceIdx
  pos : ∀ d, c.Told d → 0 < d.Seq
  denied : ∀ src who req resp, .accepted src who req resp ∈ c.soup → resp.Ok = false

section
variable {cfg : Config} {lib : Litu} {c c' : Cluster} {mv : Move} {d : Decision} {r : UInt64}
  {ins new : Instance} {k : Nat} {pc : Pc} {ms : List Msg}

theorem Done.told (h : c.Done d) : c.Told d := by
  obtain ⟨m, hm, hd⟩ := h
  exact ⟨m, hm, Msg.tells_of_commits hd⟩

theorem Voted.told (h : c.Voted r d) : c.Told d := by
  obtain ⟨m, hm, hd⟩ := h
  exact ⟨m, hm, Msg.tells_of_vote hd⟩

def Grows (c c' : Cluster) : Prop := ∀ m ∈ c.soup, m ∈ c'.soup

theorem grows_step (h : step cfg lib c mv = some c') : c.Grows c' := by
  intro m hm
  rw [soup_step h]
  exact List.mem_append_left _ hm

theorem Grows.told (hg : c.Grows c') (h : c.Told d) : c'.Told d := by
  obtain ⟨m, hm, hd⟩ := h
  exact ⟨m, hg m hm, hd⟩

theorem Grows.voted (hg : c.Grows c') (h : c.Voted r d) : c'.Voted r d := by
  obtain ⟨m, hm, hd⟩ := h
  exact ⟨m, hg m hm, hd⟩

theorem Grows.done (hg : c.Grows c') (h : c.Done d) : c'.Done d := by
  obtain ⟨m, hm, hd⟩ := h
  exact ⟨m, hg m hm, hd⟩

theorem Grows.below (hg : c.Grows c') (h : c.Below ins) : c'.Below ins where
  pos := h.pos
  short := h.short
  lower w hw := by
    obtain ⟨d, hd, hrest⟩ := h.lower w hw
    exact ⟨d, hg.told hd, hrest⟩
  upper seq hpos hlt := by
    obtain ⟨d, hd, hrest⟩ := h.upper seq hpos hlt
    exact ⟨d, hg.told hd, hrest⟩

theorem mem_voters : r ∈ c.voters ins ↔ ∃ d, c.Voted r d ∧ d.I = ins.I ∧ d.Deps = ins.Deps := by
  rw [voters, List.mem_dedup, List.mem_filterMap]
  constructor
  · rintro ⟨m, hm, hbind⟩
    obtain ⟨⟨who, d⟩, hv, hif⟩ := Option.bind_eq_some_iff.1 hbind
    obtain ⟨hd, hwho⟩ := Option.ite_none_right_eq_some.1 hif
    cases hwho
    exact ⟨d, ⟨m, hm, hv⟩, hd⟩
  · rintro ⟨d, ⟨m, hm, hv⟩, hd⟩
    refine ⟨m, hm, ?_⟩
    rw [hv, Option.bind_some, if_pos hd]

theorem length_le_voters {l : List UInt64} (hl : l.Nodup)
    (h : ∀ r ∈ l, ∃ d, c.Voted r d ∧ d.I = ins.I ∧ d.Deps = ins.Deps) :
    l.length ≤ (c.voters ins).length :=
  (List.subperm_of_subset hl fun r hr => mem_voters.2 (h r hr)).length_le

theorem Grows.voters (hg : c.Grows c') (ins : Instance) :
    (c.voters ins).length ≤ (c'.voters ins).length := by
  apply length_le_voters (List.nodup_dedup _)
  intro r hr
  obtain ⟨d, hv, hd⟩ := mem_voters.1 hr
  exact ⟨d, hg.voted hv, hd⟩

theorem Told.of_step (h : step cfg lib c mv = some c') (hd : c'.Told d) :
    c.Told d ∨ ∃ m ∈ c.sends cfg lib mv, m.tells = some d := by
  obtain ⟨m, hm, hd⟩ := hd
  rw [soup_step h] at hm
  rcases List.mem_append.1 hm with hm | hm
  · exact .inl ⟨m, hm, hd⟩
  · exact .inr ⟨m, hm, hd⟩

theorem toNat_succ {a : UInt64} (h : a + 1 ≠ 0) : (a + 1).toNat = a.toNat + 1 := by
  rw [ne_eq, ← UInt64.toNat_inj, UInt64.toNat_add] at h
  rw [UInt64.toNat_add]
  have hlt := a.toNat_lt
  simp only [UInt64.reduceToNat] at h ⊢
  omega

theorem le_nextSeq {maxSeq seq : UInt64} (h : maxSeq + 1 ≠ 0) : seq ≤ nextSeq maxSeq seq := by
  rw [nextSeq]
  split_ifs with hlt
  · exact UInt64.le_refl _
  · refine UInt64.le_trans (UInt64.not_lt.1 hlt) (UInt64.le_of_lt ?_)
    rw [UInt64.lt_iff_toNat_lt, toNat_succ h]
    exact Nat.lt_succ_self _

/-- The reply to a proposal, which does not lower its `Seq`. -/
def Replies (c : Cluster) (m : Msg) (d : Decision) : Prop := ∃ src who req resp,
  m = .preAccepted src who req resp ∧ d.I = req.I ∧ req.Seq ≤ d.Seq ∧ .preAccept src req ∈ c.soup

theorem tells_cases (h : step cfg lib c mv = some c') (hok : c.Smooth cfg mv) {m : Msg}
    (hm : m ∈ c.sends cfg lib mv) (hd : m.tells = some d) : c.Replies m d ∨
      ∃ k, mv.act = .go k ∧ ((c.reps mv.r).calls k).own mv.r = some d.I := by
  obtain ⟨-, hrec, -⟩ := step_eq h
  cases Sends.of_mem hm with
  | preAccepted req resp ha hresp =>
    left
    rw [Receives, ha] at hrec
    rw [Smooth, ha] at hok
    obtain ⟨hgrant, rfl⟩ := Msg.preAccepted_tells.1 hd
    refine ⟨_, _, req, _, rfl, rfl, ?_, hrec.2⟩
    have hmax := hok.1
    rw [State.getInterf_seq] at hmax
    obtain ⟨ins, hins, rfl⟩ := State.granted_of_ok hresp hgrant
    change req.Seq ≤ ins.Seq
    rw [State.preAccepted_seq hins]
    exact le_nextSeq hmax
  | accepted | prepared | prepare => cases hd
  | preAccept k ins ha hk | accept k ins ha hk | commit k ins ha hk =>
    cases hd
    exact .inr ⟨k, ha, by rw [hk]; rfl⟩

/-- A step of others keeps what a call relies on: it tells of the call's instance only in reply
to it. -/
theorem CallOk.mono (h : c.CallOk cfg r pc) (hg : c.Grows c')
    (hnew : ∀ m ∈ c'.soup, m ∉ c.soup → ∀ d, m.tells = some d → pc.own r = some d.I →
      c.Replies m d) : c'.CallOk cfg r pc := by
  have hunsaid {i} (hown : pc.own r = some i) (hu : ∀ d, c.Told d → d.I ≠ i) :
      ∀ d, c'.Told d → d.I ≠ i := by
    rintro d ⟨m, hm, hd⟩ hi
    by_cases hold : m ∈ c.soup
    · exact hu d ⟨m, hold, hd⟩ hi
    · obtain ⟨src, who, req, resp, -, hI, -, hreq⟩ := hnew m hm hold d hd (by rw [hown, hi])
      exact hu req.decision ⟨_, hreq, rfl⟩ (hI.symm.trans hi)
  have hproposed {ins} (hown : pc.own r = some ins.I) (hp : c.Proposed r ins) :
      c'.Proposed r ins := by
    refine ⟨hg.below hp.below, hg _ hp.sent, ?_⟩
    intro m hm d hd hi
    by_cases hold : m ∈ c.soup
    · exact hp.only m hold d hd hi
    · obtain ⟨src, who, req, resp, rfl, hI, hle, hreq⟩ := hnew m hm hold d hd (by rw [hown, hi])
      have habout : req = ins.req := (hp.only _ hreq req.decision rfl (hI.symm.trans hi)).1
      refine ⟨habout, ?_⟩
      rwa [habout] at hle
  have hundone {i} (hown : pc.own r = some i) (hu : ∀ d, c.Done d → d.I ≠ i) :
      ∀ d, c'.Done d → d.I ≠ i := by
    rintro d ⟨m, hm, hd⟩ hi
    by_cases hold : m ∈ c.soup
    · exact hu d ⟨m, hold, hd⟩ hi
    · obtain ⟨src, who, req, resp, rfl, -⟩ :=
        hnew m hm hold d (Msg.tells_of_commits hd) (by rw [hown, hi])
      cases hd
  cases pc with
  | idle => trivial
  | interf y idx => exact hunsaid rfl h
  | next n =>
    cases n with
    | phase1 ins => exact ⟨hunsaid rfl h.1, h.2.1, hg.below h.2.2⟩
    | accept ins => exact ⟨h.1, h.2.1, hundone rfl h.2.2⟩
    | commit ins =>
      refine ⟨hproposed rfl h.1, ?_⟩
      intro hodd
      have hlt := h.2 hodd
      have hle := hg.voters ins
      omega
    | stop => trivial
  | preAccepting ins => exact hproposed rfl h
  | accepting ins => exact ⟨h.1, h.2.1, hundone rfl h.2.2⟩
  | preparing i b => exact h

theorem Proposed.majority {results : List (Result PreAcceptResp)} (h : c.Proposed r ins)
    (hodd : cfg.n % 2 = 1)
    (hans : Answers cfg (cfg.n - 1) results fun who resp =>
      who ≠ r ∧ .preAccepted r who ins.req resp ∈ c.soup)
    (hfast : (cfg.ep r).fastPathQuorum ≤
      (counted (cfg.ep r) lib ins (results.map (Option.map Prod.snd))).length + 1)
    (hdeps : ∀ resp ∈ counted (cfg.ep r) lib ins (results.map (Option.map Prod.snd)),
      resp.Deps = ins.Deps) : cfg.n < 2 * (c.voters ins).length := by
  obtain ⟨-, hnodup, hsent⟩ := hans
  have hcount : (counted (cfg.ep r) lib ins (results.map (Option.map Prod.snd))).length ≤
      ((results.filterMap id).filter fun p => p.2.Ok ∧ p.2.Deps = ins.Deps).length := by
    have hsub : (counted (cfg.ep r) lib ins (results.map (Option.map Prod.snd))).Sublist
        ((results.filterMap id).map Prod.snd) := by
      have heq : (results.map (Option.map Prod.snd)).filterMap id =
          (results.filterMap id).map Prod.snd := by
        rw [List.filterMap_map, List.map_filterMap]
        rfl
      rw [← heq]
      exact counted_sublist
    have hall : ∀ resp ∈ counted (cfg.ep r) lib ins (results.map (Option.map Prod.snd)),
        decide (resp.Ok ∧ resp.Deps = ins.Deps) = true := fun resp hresp =>
      decide_eq_true ⟨counted_ok resp hresp, hdeps resp hresp⟩
    have hle :=
      hsub.countP_le (p := fun resp : PreAcceptResp => decide (resp.Ok ∧ resp.Deps = ins.Deps))
    rw [List.countP_eq_length.2 hall, List.countP_map, List.countP_eq_length_filter] at hle
    exact hle
  have hvoters := @length_le_voters c ins (r :: ((results.filterMap id).filter fun p =>
    p.2.Ok ∧ p.2.Deps = ins.Deps).map Prod.fst) ?_ ?_
  · rw [List.length_cons, List.length_map] at hvoters
    have hquorum : (cfg.ep r).fastPathQuorum =
        (cfg.n - (cfg.n / 2 + 1)) + (cfg.n - (cfg.n / 2 + 1) + 1) / 2 := rfl
    omega
  · rw [List.nodup_cons]
    refine ⟨?_, hnodup.sublist (List.filter_sublist.map _)⟩
    intro hr
    obtain ⟨p, hp, heq⟩ := List.mem_map.1 hr
    exact (hsent p (List.mem_filter.1 hp).1).2.1 heq
  · rw [List.forall_mem_cons]
    refine ⟨⟨_, ⟨_, h.sent, rfl⟩, rfl, rfl⟩, ?_⟩
    intro who hwho
    obtain ⟨⟨who, resp⟩, hp, rfl⟩ := List.mem_map.1 hwho
    obtain ⟨hp, hok⟩ := List.mem_filter.1 hp
    obtain ⟨hok, hd⟩ := of_decide_eq_true hok
    refine ⟨⟨ins.I, ins.Y, resp.Seq, resp.Deps⟩, ⟨_, (hsent _ hp).2.2, ?_⟩, rfl, hd⟩
    rw [Msg.vote, if_pos hok]
    rfl

/-! ## Records -/

theorem root_storeCmd (s : State) (ins : Instance) (key : List UInt8) :
    (s.storeCmd ins).root key =
      if key = ins.Y.Key then some ((s.keyDep key).update ins) else s.root key := by
  split_ifs with hkey
  · rw [hkey, State.storeCmd, State.root_setCmd]
  · rw [State.storeCmd, State.setCmd]
    dsimp only
    rw [Function.update_of_ne hkey]

theorem keyDep_of_root {s : State} {key : List UInt8} {dep : KeyDep}
    (h : s.root key = some dep) : s.keyDep key = dep := by
  rw [State.keyDep, h, Option.getD_some]

theorem keyDep_of_none {s : State} {key : List UInt8} (h : s.root key = none) :
    s.keyDep key = .zero := by
  rw [State.keyDep, h, Option.getD_none]

theorem update_cases (dep : KeyDep) (ins : Instance) :
    dep.lastSeq < ins.Seq ∧ (dep.update ins).lastSeq = ins.Seq ∧
      (dep.update ins).lastId = some ins.I ∨
      ins.Seq ≤ dep.lastSeq ∧ (dep.update ins).lastSeq = dep.lastSeq ∧
        (dep.update ins).lastId = dep.lastId := by
  by_cases hlt : dep.lastSeq < ins.Seq
  · left
    rw [KeyDep.update, if_pos hlt]
    split_ifs <;> exact ⟨hlt, rfl, rfl⟩
  · right
    rw [KeyDep.update, if_neg hlt]
    split_ifs <;> exact ⟨UInt64.not_lt.1 hlt, rfl, rfl⟩

/-- The last instance of a key that a replica has recorded has been told of with that `Seq`. -/
def Recorded (c : Cluster) : Prop := ∀ r key, (c.reps r).state.root key = none ∨
  ∃ d, c.Told d ∧ (c.reps r).state.root key = some ((c.reps r).state.keyDep key) ∧
    ((c.reps r).state.keyDep key).lastId = some d.I ∧ d.Y.Key = key ∧
    d.Seq = ((c.reps r).state.keyDep key).lastSeq

theorem preAccept_of_guards {lib : Slices} {s : State} {req : PreAcceptReq} {ins : Instance}
    (hins : s.preAccepted lib req = some ins) (h : ∀ curr, s.cmds req.I = some curr →
      lessBallotNumber req.Ballot curr.MaxSeen = false ∧ curr.State ≠ .committed) :
    (s.preAccept lib req).2 = some (.granted ins) := by
  rw [State.preAccept, State.getCmd, State.preAccept.store, hins]
  cases hc : s.cmds req.I with
  | none => rfl
  | some curr =>
    obtain ⟨hless, hstate⟩ := h curr hc
    dsimp only
    rw [if_neg (not_or_intro (by rw [hless]; exact Bool.false_ne_true) hstate)]
    rfl

theorem stores_told (h : step cfg lib c mv = some c')
    (hst : (c.reps mv.r).Stores lib.toSlices mv.act ins) : c'.Told ins.decision := by
  obtain ⟨-, hrec, -⟩ := step_eq h
  have hsent {m : Msg} (hm : m ∈ c.sends cfg lib mv) (ht : m.tells = some ins.decision) :
      c'.Told ins.decision := ⟨m, by rw [soup_step h]; exact List.mem_append_right _ hm, ht⟩
  generalize ha : mv.act = a at hst
  rw [Receives, ha] at hrec
  cases hst with
  | preAccept req ins hins hall =>
    refine hsent (m := .preAccepted mv.src mv.r req (.granted ins)) ?_ ?_
    · rw [sends, ha]
      dsimp only
      rw [preAccept_of_guards hins hall]
      exact List.mem_singleton_self _
    · obtain ⟨seq, deps, rfl⟩ := preAccepted_attrs hins
      exact Msg.preAccepted_tells.2 ⟨rfl, rfl⟩
  | accept req hall => exact ⟨_, grows_step h _ hrec.2, rfl⟩
  | commit req => exact ⟨_, grows_step h _ hrec.2, rfl⟩
  | phase1 k ins hk =>
    refine hsent (m := .preAccept mv.r ins.req) ?_ rfl
    rw [sends, ha]
    dsimp only
    rw [hk]
    exact List.mem_singleton_self _
  | acceptPhase k ins hk =>
    refine hsent (m := .accept mv.r ins.req) ?_ rfl
    rw [sends, ha]
    dsimp only
    rw [hk]
    exact List.mem_singleton_self _
  | commitPhase k ins hk =>
    refine hsent (m := .commit mv.r ins.req) ?_ rfl
    rw [sends, ha]
    dsimp only
    rw [hk]
    exact List.mem_singleton_self _

theorem root_step (h : step cfg lib c mv = some c') (r : UInt64) (key : List UInt8) :
    (c'.reps r).state.root key = (c.reps r).state.root key ∨
      ∃ ins, r = mv.r ∧ (c.reps r).Stores lib.toSlices mv.act ins ∧ key = ins.Y.Key ∧
        (c'.reps r).state.root key = some (((c.reps r).state.keyDep key).update ins) := by
  obtain ⟨-, heq⟩ | ⟨rfl, hstep⟩ := reps_step h r
  · rw [heq]
    exact .inl rfl
  · obtain ⟨ins, hst, heq⟩ | ⟨-, heq⟩ := Replica.state_step hstep
    · rw [heq, root_storeCmd]
      split_ifs with hkey
      · exact .inr ⟨ins, rfl, hst, hkey, rfl⟩
      · exact .inl rfl
    · left
      obtain heq | ⟨k, y, -, heq⟩ := heq
      · rw [heq]
      · rw [heq]
        rfl

/-- Instances with a `Seq` above zero leave no record without a last instance. -/
theorem Recorded.step (hrec : c.Recorded) (h : step cfg lib c mv = some c')
    (hpos : ∀ d, c'.Told d → 0 < d.Seq) : c'.Recorded := by
  intro r key
  have hg := grows_step h
  obtain heq | ⟨ins, rfl, hst, hkey, heq⟩ := root_step h r key
  · rw [State.keyDep, heq]
    rcases hrec r key with hnone | ⟨d, hd, hrest⟩
    · exact .inl hnone
    · exact .inr ⟨d, hg.told hd, hrest⟩
  · right
    rw [keyDep_of_root heq, heq]
    have htold := stores_told h hst
    obtain ⟨-, hseq, hid⟩ | ⟨hle, hseq, hid⟩ := update_cases ((c.reps mv.r).state.keyDep key) ins
    · rw [hseq, hid]
      exact ⟨_, htold, rfl, rfl, hkey.symm, rfl⟩
    · rw [hseq, hid]
      rcases hrec mv.r key with hnone | ⟨d, hd, -, hrest⟩
      · rw [keyDep_of_none hnone] at hle
        have hlt := UInt64.lt_of_lt_of_le (hpos _ htold) hle
        exact absurd hlt (UInt64.lt_irrefl _)
      · exact ⟨d, hg.told hd, rfl, hrest⟩

/-! ## Calls -/

theorem Recorded.getInterf (hrec : c.Recorded) (r : UInt64) (key : List UInt8) :
    (c.reps r).state.getInterf key = (0, []) ∨ ∃ d, c.Told d ∧ d.Y.Key = key ∧
      (c.reps r).state.getInterf key = (d.Seq, [some d.I]) := by
  rw [State.getInterf]
  rcases hrec r key with hnone | ⟨d, hd, hroot, hid, hkey, hseq⟩
  · rw [hnone]
    exact .inl rfl
  · rw [hroot]
    dsimp only
    rw [hid, ← hseq]
    exact .inr ⟨d, hd, hkey, rfl⟩

theorem Recorded.below (hrec : c.Recorded) (y : Command) (idx : UInt64)
    (hmax : ((c.reps r).state.getInterf y.Key).1 + 1 ≠ 0) :
    c.Below (Replica.propose (cfg.ep r) (c.reps r).state y idx) := by
  have hnext := toNat_succ hmax
  rw [Replica.propose]
  obtain hnone | ⟨d, hd, hkey, hget⟩ := hrec.getInterf r y.Key
  · rw [hnone]
    have hone : (0 : UInt64) < 0 + 1 := by decide
    refine ⟨hone, Nat.zero_le 1, nofun, ?_⟩
    intro seq hpos hlt
    rw [UInt64.lt_iff_toNat_lt] at hpos hlt
    exact absurd (Nat.lt_of_lt_of_le hpos (Nat.le_of_lt_succ hlt)) (Nat.lt_irrefl _)
  · rw [hget] at hnext ⊢
    dsimp only at hnext ⊢
    refine ⟨?_, Nat.le_refl 1, ?_, ?_⟩
    · rw [UInt64.lt_iff_toNat_lt, hnext]
      exact Nat.succ_pos _
    · rw [List.forall_mem_singleton]
      refine ⟨d, hd, rfl, hkey, ?_⟩
      rw [UInt64.lt_iff_toNat_lt, hnext]
      exact Nat.lt_succ_self _
    · intro seq _ hlt
      rw [UInt64.lt_iff_toNat_lt, hnext] at hlt
      refine ⟨d, hd, List.mem_singleton_self _, hkey, ?_⟩
      rw [UInt64.le_iff_toNat_le]
      exact Nat.le_of_lt_succ hlt

theorem own_step (hc : c.Calls cfg) (h : step cfg lib c mv = some c') (hok : c.Smooth cfg mv)
    {i : InstanceId} (hown : ((c'.reps r).calls k).own r = some i) :
    ((c.reps r).calls k).own r = some i ∨
      r = mv.r ∧ (∃ y, mv.act = .request k y) ∧ i = ⟨r, (c.reps r).state.instanceIdx + 1⟩ := by
  obtain ⟨-, heq⟩ | ⟨rfl, hstep⟩ := reps_step h r
  · rw [heq] at hown
    exact .inl hown
  · rcases Replica.calls_step hstep k with ⟨-, heq⟩ | ⟨-, ht⟩
    · rw [heq] at hown
      exact .inl hown
    · have hcall := hc.ok mv.r k
      generalize (c'.reps mv.r).calls k = pc at hown ht
      generalize ha : mv.act = a at ht
      cases ht with
      | request y _ =>
        cases hown
        exact .inr ⟨rfl, ⟨y, rfl⟩, rfl⟩
      | recover i b _ _ =>
        rw [Smooth, ha] at hok
        exact absurd hok id
      | interf y idx hk | phase1 ins hk | accept ins hk =>
        rw [hk]
        exact .inl hown
      | commit | stop => cases hown
      | preAccepts results ins next hk hnext =>
        rw [hk]
        obtain ⟨new, hnew, rfl⟩ := Option.map_eq_some_iff.1 hown
        rw [(preAccepted_ins hnext hnew).1]
        exact .inl rfl
      | accepts results ins hk =>
        rw [hk]
        obtain hstop | ⟨new, ⟨m, rfl⟩, hnew⟩ :=
          accepted_cases (cfg.ep mv.r) ins (results.map (Option.map Prod.snd))
        · rw [hstop] at hown
          cases hown
        · rw [hnew] at hown
          exact .inl hown
      | prepares results i nextBallot n hk _ =>
        rw [hk] at hcall
        exact absurd hcall id

theorem number_lt (hok : c.Smooth cfg mv) {y : Command} (ha : mv.act = .request k y) :
    (c.reps mv.r).state.instanceIdx < (c.reps mv.r).state.instanceIdx + 1 := by
  rw [Smooth, ha] at hok
  rw [UInt64.lt_iff_toNat_lt, toNat_succ hok]
  exact Nat.lt_succ_self _

theorem number_le (h : step cfg lib c mv = some c') (hok : c.Smooth cfg mv) (r : UInt64) :
    (c.reps r).state.instanceIdx ≤ (c'.reps r).state.instanceIdx := by
  obtain ⟨-, heq⟩ | ⟨rfl, hstep⟩ := reps_step h r
  · rw [heq]
    exact UInt64.le_refl _
  · obtain heq | ⟨j, y, ha⟩ := Replica.instanceIdx_step hstep
    · rw [heq]
      exact UInt64.le_refl _
    · rw [instanceIdx_eq h ha]
      exact UInt64.le_of_lt (number_lt hok ha)

theorem Calls.apart (hc : c.Calls cfg) (h : step cfg lib c mv = some c') (hok : c.Smooth cfg mv)
    (hk : r = mv.r → mv.act.call ≠ some k) :
    ∀ m ∈ c'.soup, m ∉ c.soup → ∀ d, m.tells = some d → ((c.reps r).calls k).own r = some d.I →
      c.Replies m d := by
  intro m hm hnot d hd hown
  rw [soup_step h] at hm
  have hm := (List.mem_append.1 hm).resolve_left hnot
  obtain hreply | ⟨j, ha, hj⟩ := tells_cases h hok hm hd
  · exact hreply
  · have hr := (hc.own _ _ _ hown).1.symm.trans (hc.own _ _ _ hj).1
    subst hr
    cases hc.single _ _ _ _ hown hj
    exact absurd (by rw [ha]; rfl) (hk rfl)

theorem soup_quiet (h : step cfg lib c mv = some c') (hs : c.sends cfg lib mv = []) :
    c'.soup = c.soup := by
  rw [soup_step h, hs, List.append_nil]

theorem Proposed.congr (h : c.Proposed r ins) (hreq : new.req = ins.req) : c.Proposed r new := by
  have heq := hreq
  rw [Instance.req, Instance.req, AcceptReq.mk.injEq] at heq
  obtain ⟨-, hY, hseq, hdeps, hI⟩ := heq
  refine ⟨?_, ?_, ?_⟩
  · obtain ⟨hpos, hshort, hlower, hupper⟩ := h.below
    rw [← hseq] at hpos hlower hupper
    rw [← hdeps] at hshort hlower hupper
    rw [← hY] at hlower hupper
    exact ⟨hpos, hshort, hlower, hupper⟩
  · rw [hreq]
    exact h.sent
  · rw [hreq, hI, hseq]
    exact h.only

theorem Proposed.undone (h : c.Proposed r ins) (hd : c.Done d) : d.I ≠ ins.I := by
  intro hi
  obtain ⟨m, hm, hd⟩ := hd
  have habout := (h.only m hm d (Msg.tells_of_commits hd) hi).1
  cases m with
  | commit => exact habout
  | preAccept | preAccepted | accept | prepare | accepted | prepared => cases hd

theorem preAccepted_alone {results : List (Result PreAcceptResp)} (hr : r.toNat < cfg.n)
    (hlen : results.length = cfg.n - 1)
    (h : preAccepted (cfg.ep r) lib ins (results.map (Option.map Prod.snd)) =
      some (.accept new)) :
    1 < cfg.n := by
  by_contra hn
  have hnil : results = [] := List.length_eq_zero_iff.1 (by omega)
  have hquorum : (cfg.ep r).fastPathQuorum =
      (cfg.n - (cfg.n / 2 + 1)) + (cfg.n - (cfg.n / 2 + 1) + 1) / 2 := rfl
  rw [hnil, List.map_nil] at h
  obtain ⟨t₀, t, h₀, ht, hnext⟩ := preAccepted_eq_some.1 h
  obtain ⟨deps, -, rfl⟩ := Option.map_eq_some_iff.1 h₀
  cases ht
  rw [PreAccepting.next, if_pos] at hnext
  · cases hnext
  · refine ⟨?_, rfl⟩
    rw [hquorum]
    dsimp only
    omega

theorem Proposed.preAccepts {results : List (Result PreAcceptResp)} {next : Next}
    (h : c.Proposed r ins) (hr : r.toNat < cfg.n)
    (hans : Answers cfg (cfg.n - 1) results fun who resp =>
      who ≠ r ∧ .preAccepted r who ins.req resp ∈ c.soup)
    (hnext : preAccepted (cfg.ep r) lib ins (results.map (Option.map Prod.snd)) = some next) :
    c.CallOk cfg r (.next next) := by
  cases next with
  | phase1 new => exact absurd hnext (preAccepted_ne_phase1 _ new)
  | stop => trivial
  | commit new =>
    obtain ⟨hreq, hfast, hdeps⟩ := fast_spec hnext h.below.short
    refine ⟨h.congr hreq, ?_⟩
    intro hodd
    have hvoters : c.voters new = c.voters ins := by
      rw [Instance.req, Instance.req, AcceptReq.mk.injEq] at hreq
      rw [voters, voters, hreq.2.2.2.1, hreq.2.2.2.2]
    rw [hvoters]
    exact h.majority hodd hans hfast hdeps
  | accept new =>
    have hI := (preAccepted_ins hnext rfl).1
    refine ⟨preAccepted_alone hr hans.1 hnext, ?_, ?_⟩
    · exact UInt64.lt_of_lt_of_le h.below.pos (seq_le_of_preAccepted hnext rfl)
    · intro d hd
      rw [hI]
      exact h.undone hd

theorem Calls.turn (hc : c.Calls cfg) (hrec : c.Recorded) (h : step cfg lib c mv = some c')
    (hok : c.Smooth cfg mv) (ht : (c.reps mv.r).Turn (cfg.ep mv.r) lib k mv.act pc) :
    c'.CallOk cfg mv.r pc := by
  obtain ⟨hr, hreceives, -⟩ := step_eq h
  have hg := grows_step h
  have hcall := hc.ok mv.r k
  generalize ha : mv.act = a at ht
  cases ht with
  | request y hk =>
    have hsoup := soup_quiet h (by rw [sends, ha])
    rw [Smooth, ha] at hok
    rintro d ⟨m, hm, hd⟩ hi
    have hold := hc.old d ⟨m, hsoup ▸ hm, hd⟩
    rw [hi, UInt64.le_iff_toNat_le, toNat_succ hok] at hold
    exact Nat.not_succ_le_self _ hold
  | recover =>
    rw [Smooth, ha] at hok
    exact absurd hok id
  | interf y idx hk =>
    have hsoup := soup_quiet h (by rw [sends, ha]; dsimp only; rw [hk])
    rw [Smooth, ha] at hok
    dsimp only at hok
    rw [hk] at hcall hok
    refine ⟨?_, rfl, hg.below (hrec.below y idx hok)⟩
    rintro d ⟨m, hm, hd⟩
    exact hcall d ⟨m, hsoup ▸ hm, hd⟩
  | phase1 ins hk =>
    have hsoup := soup_step h
    rw [sends, ha] at hsoup
    dsimp only at hsoup
    rw [hk] at hcall hsoup
    obtain ⟨hnone, -, hbelow⟩ := hcall
    refine ⟨hg.below hbelow, ?_, ?_⟩
    · rw [hsoup]
      exact List.mem_append_right _ (List.mem_singleton_self _)
    · intro m hm d hd hi
      rw [hsoup] at hm
      rcases List.mem_append.1 hm with hm | hm
      · exact absurd hi (hnone d ⟨m, hm, hd⟩)
      · cases List.mem_singleton.1 hm
        cases hd
        exact ⟨rfl, UInt64.le_refl _⟩
  | accept ins hk =>
    have hsoup := soup_step h
    rw [sends, ha] at hsoup
    dsimp only at hsoup
    rw [hk] at hcall hsoup
    refine ⟨hcall.1, hcall.2.1, ?_⟩
    rintro d ⟨m, hm, hd⟩
    rw [hsoup] at hm
    rcases List.mem_append.1 hm with hm | hm
    · exact hcall.2.2 d ⟨m, hm, hd⟩
    · cases List.mem_singleton.1 hm
      cases hd
  | commit | stop => trivial
  | preAccepts results ins next hk hnext =>
    have hsoup := soup_quiet h (by rw [sends, ha])
    rw [hk] at hcall
    have hproposed : c'.Proposed mv.r ins := by
      refine ⟨hg.below hcall.below, hg _ hcall.sent, ?_⟩
      rw [hsoup]
      exact hcall.only
    have hans := hreceives.preAccepts ha hk
    rw [← hsoup] at hans
    exact hproposed.preAccepts hr hans hnext
  | accepts results ins hk =>
    rw [hk] at hcall
    rw [accepts_stop h hcall.1 hc.denied ha hk]
    trivial
  | prepares results i nextBallot n hk _ =>
    rw [hk] at hcall
    exact absurd hcall id

theorem Calls.pos_go (hc : c.Calls cfg) (ha : mv.act = .go k) {m : Msg}
    (hm : m ∈ c.sends cfg lib mv) (hd : m.tells = some d) : 0 < d.Seq := by
  have hcall (k : Nat) := hc.ok mv.r k
  cases Sends.of_mem hm with
  | preAccepted _ _ ha' => cases ha.symm.trans ha'
  | accepted | prepared | prepare => cases hd
  | preAccept k ins _ hk =>
    cases hd
    have hok := hcall k
    rw [hk] at hok
    exact hok.2.2.pos
  | accept k ins _ hk =>
    cases hd
    have hok := hcall k
    rw [hk] at hok
    exact hok.2.1
  | commit k ins _ hk =>
    cases hd
    have hok := hcall k
    rw [hk] at hok
    exact hok.1.below.pos

theorem Calls.step (hc : c.Calls cfg) (hrec : c.Recorded) (h : step cfg lib c mv = some c')
    (hok : c.Smooth cfg mv) : c'.Calls cfg where
  own r k i hown := by
    have hle := number_le h hok r
    obtain hown | ⟨rfl, ⟨y, ha⟩, rfl⟩ := own_step hc h hok hown
    · obtain ⟨hr, hidx⟩ := hc.own r k i hown
      exact ⟨hr, UInt64.le_trans hidx hle⟩
    · refine ⟨rfl, ?_⟩
      rw [instanceIdx_eq h ha]
      exact UInt64.le_refl _
  single r k k' i hown hown' := by
    have hlate {y j} (hr : r = mv.r) (ha : mv.act = .request j y) :
        ¬ (c.reps r).state.instanceIdx + 1 ≤ (c.reps r).state.instanceIdx := by
      rw [hr]
      exact UInt64.not_le.2 (number_lt hok ha)
    obtain hown | ⟨hr, ⟨y, ha⟩, rfl⟩ := own_step hc h hok hown
    · obtain hown' | ⟨hr, ⟨y, ha⟩, rfl⟩ := own_step hc h hok hown'
      · exact hc.single r k k' i hown hown'
      · exact absurd (hc.own _ _ _ hown).2 (hlate hr ha)
    · obtain hown' | ⟨-, ⟨y', ha'⟩, -⟩ := own_step hc h hok hown'
      · exact absurd (hc.own _ _ _ hown').2 (hlate hr ha)
      · cases ha.symm.trans ha'
        rfl
  ok r k := by
    obtain ⟨hr, heq⟩ | ⟨rfl, hstep⟩ := reps_step h r
    · rw [heq]
      exact (hc.ok r k).mono (grows_step h) (hc.apart h hok fun he => absurd he hr)
    · rcases Replica.calls_step hstep k with ⟨hk, heq⟩ | ⟨-, ht⟩
      · rw [heq]
        exact (hc.ok mv.r k).mono (grows_step h) (hc.apart h hok fun _ => hk)
      · exact hc.turn hrec h hok ht
  old d hd := by
    have hle := number_le h hok d.I.Rid
    obtain hd | ⟨m, hm, hd⟩ := hd.of_step h
    · exact UInt64.le_trans (hc.old d hd) hle
    · obtain ⟨src, who, req, resp, -, hI, -, hreq⟩ | ⟨k, -, hown⟩ := tells_cases h hok hm hd
      · have hold := hc.old req.decision ⟨_, hreq, rfl⟩
        have hI : d.I = req.decision.I := hI
        rw [← hI] at hold
        exact UInt64.le_trans hold hle
      · obtain ⟨hr, hidx⟩ := hc.own _ _ _ hown
        rw [hr] at hle ⊢
        exact UInt64.le_trans hidx hle
  pos d hd := by
    obtain hd | ⟨m, hm, hd⟩ := hd.of_step h
    · exact hc.pos d hd
    · obtain ⟨src, who, req, resp, -, -, hle, hreq⟩ | ⟨k, ha, -⟩ := tells_cases h hok hm hd
      · exact UInt64.lt_of_lt_of_le (hc.pos req.decision ⟨_, hreq, rfl⟩) hle
      · exact hc.pos_go ha hm hd
  denied src who req resp hm := by
    rw [soup_step h] at hm
    rcases List.mem_append.1 hm with hm | hm
    · exact hc.denied src who req resp hm
    · exact denied_of_sends hm

theorem Calls.start (cfg : Config) : start.Calls cfg where
  own _ _ _ hown := nomatch hown
  single _ _ _ _ hown := nomatch hown
  ok _ _ := trivial
  old d hd := by
    obtain ⟨m, hm, -⟩ := hd
    cases hm
  pos d hd := by
    obtain ⟨m, hm, -⟩ := hd
    cases hm
  denied _ _ _ _ hm := nomatch hm

theorem Recorded.start : start.Recorded := fun _ _ => .inl rfl

end

end Cluster

end Misc.Epaxos
