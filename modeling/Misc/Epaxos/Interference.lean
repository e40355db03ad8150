import Misc.Lib.Graph
import Misc.Epaxos.Proposals

namespace Misc.Epaxos
open Misc.Lib
set_option autoImplicit true

def Command.Interferes (y y' : Command) : Prop := y.Key = y'.Key ∧ (y.Op = .w ∨ y'.Op = .w)

namespace Cluster

def CommittedDep (c : Cluster) (i j : InstanceId) : Prop :=
  ∃ r ins, (c.reps r).state.cmds i = some ins ∧ ins.State = .committed ∧ some j ∈ ins.Deps

/-- Of two committed instances that interfere one leads to the other through committed
dependencies. -/
def Ordered (c : Cluster) : Prop := ∀ r r' i i' ins ins', i ≠ i' →
  (c.reps r).state.cmds i = some ins → (c.reps r').state.cmds i' = some ins' →
  ins.State = .committed → ins'.State = .committed → ins.Y.Interferes ins'.Y →
  Relation.TransGen c.CommittedDep i i' ∨ Relation.TransGen c.CommittedDep i' i

/-- Among the dependencies of `b` is one with the key of `b` that is told of with a `Seq` as
large as that of `a`. -/
def Covers (c : Cluster) (a b : Decision) : Prop :=
  ∃ d, c.Told d ∧ some d.I ∈ b.Deps ∧ d.Y.Key = b.Y.Key ∧ a.Seq ≤ d.Seq

/-- Among the dependencies of `b` is a committed one that is not below `a`. -/
def Linked (c : Cluster) (a b : Decision) : Prop :=
  ∃ d, c.Done d ∧ some d.I ∈ b.Deps ∧ a.Seq ≤ d.Seq

/-- How the replicas have pre-accepted and committed instances. -/
structure Following (cfg : Config) (c : Cluster) : Prop where
  latest : ∀ r d, c.Voted r d → d.Seq ≤ ((c.reps r).state.keyDep d.Y.Key).lastSeq
  covers : ∀ r a b, c.Voted r a → c.Voted r b → a.I ≠ b.I → a.Y.Key = b.Y.Key →
    0 < a.Seq → 0 < b.Seq → c.Covers a b ∨ c.Covers b a
  least : ∀ d e, c.Done d → c.Told e → e.I = d.I → e.Y = d.Y ∧ d.Seq ≤ e.Seq
  unique : ∀ d d', c.Done d → c.Done d' → d.I = d'.I → d = d'
  pos : ∀ d, c.Done d → 0 < d.Seq
  lower : ∀ d, c.Done d → ∀ w ∈ d.Deps,
    ∃ e, c.Told e ∧ w = some e.I ∧ e.Y.Key = d.Y.Key ∧ e.Seq < d.Seq
  quorum : ∀ d, c.Done d → ∃ l : List UInt64, l.Nodup ∧ cfg.n < 2 * l.length ∧
    ∀ r ∈ l, ∃ v, c.Voted r v ∧ v.I = d.I ∧ v.Deps = d.Deps
  member : ∀ r d, c.Voted r d → r.toNat < cfg.n
  shows : ∀ u d t, c.Done u → c.Done d → d.Y.Key = u.Y.Key → c.Told t →
    t.I = u.I → d.Seq ≤ t.Seq → d.Seq ≤ u.Seq
  linked : ∀ a b, c.Done a → c.Done b → a.I ≠ b.I → a.Y.Key = b.Y.Key →
    c.Linked a b ∨ c.Linked b a
  stored : ∀ r i ins, (c.reps r).state.cmds i = some ins → ins.State = .committed →
    c.Done ⟨i, ins.Y, ins.Seq, ins.Deps⟩
  kept : ∀ d, c.Done d → (c.reps d.I.Rid).state.cmds.Committed d.I

section
variable {cfg : Config} {lib : Litu} {c c' : Cluster} {mv : Move}
  {a b d e : Decision} {r : UInt64}
  {ins : Instance} {k : Nat}

theorem Grows.covers (hg : c.Grows c') (h : c.Covers a b) : c'.Covers a b := by
  obtain ⟨d, hd, hrest⟩ := h
  exact ⟨d, hg.told hd, hrest⟩

/-- A replica pre-accepts an instance when it handles the request, or as its leader. -/
inductive NewVote (lib : Litu) (c : Cluster) (mv : Move) (d : Decision) : Prop
  | handler (req : PreAcceptReq) (ins : Instance) : mv.act = .preAccept req →
      .preAccept mv.src req ∈ c.soup → (c.reps mv.r).state.Grants lib.toSlices req →
      (c.reps mv.r).state.preAccepted lib.toSlices req = some ins → d = ins.decision →
      NewVote lib c mv d
  | leader (k : Nat) (ins : Instance) : mv.act = .go k →
      (c.reps mv.r).calls k = .next (.phase1 ins) → d = ins.decision → NewVote lib c mv d

theorem NewVote.unique (h : NewVote lib c mv a) (h' : NewVote lib c mv b) : a = b := by
  cases h with
  | handler req ins ha _ _ hins hd =>
    cases h' with
    | handler req' ins' ha' _ _ hins' hd' =>
      cases ha.symm.trans ha'
      cases hins.symm.trans hins'
      rw [hd, hd']
    | leader k ins ha' => cases ha.symm.trans ha'
  | leader k ins ha hk hd =>
    cases h' with
    | handler _ _ ha' => cases ha.symm.trans ha'
    | leader k' ins' ha' hk' hd' =>
      cases ha.symm.trans ha'
      cases hk.symm.trans hk'
      rw [hd, hd']

theorem voted_step (h : step cfg lib c mv = some c') (hv : c'.Voted r d) :
    c.Voted r d ∨ r = mv.r ∧ NewVote lib c mv d := by
  obtain ⟨-, hrec, -⟩ := step_eq h
  obtain ⟨m, hm, hv⟩ := hv
  rw [soup_step h] at hm
  rcases List.mem_append.1 hm with hm | hm
  · exact .inl ⟨m, hm, hv⟩
  · cases Sends.of_mem hm with
    | preAccepted req resp ha hresp =>
      rw [Receives, ha] at hrec
      obtain ⟨hok, hv⟩ := Option.ite_none_right_eq_some.1 hv
      cases hv
      obtain ⟨ins, hins, rfl⟩ := State.granted_of_ok hresp hok
      obtain ⟨seq, deps, rfl⟩ := preAccepted_attrs hins
      exact .inr ⟨rfl, .handler req _ ha hrec.2 ⟨_, hresp, rfl⟩ hins rfl⟩
    | preAccept k ins ha hk =>
      cases hv
      exact .inr ⟨rfl, .leader k ins ha hk rfl⟩
    | accepted | prepared | prepare | accept | commit => cases hv

theorem NewVote.storeCmd (h : step cfg lib c mv = some c') (hv : NewVote lib c mv d) :
    ∃ ins, d = ins.decision ∧ (c'.reps mv.r).state = (c.reps mv.r).state.storeCmd ins := by
  obtain ⟨hr, -⟩ | ⟨-, hstep⟩ := reps_step h mv.r
  · exact absurd rfl hr
  · cases hv with
    | handler req ins ha _ hok hins hd =>
      rw [ha] at hstep
      have hstate := congrArg Replica.state (Option.some.inj hstep)
      obtain ⟨_, hins', heq⟩ := hok.eq
      cases hins.symm.trans hins'
      refine ⟨ins, hd, ?_⟩
      rw [← hstate]
      exact congrArg Prod.fst heq
    | leader k ins ha hk hd =>
      rw [ha, Replica.step, Replica.go, hk] at hstep
      have hstate := congrArg Replica.state (Option.some.inj hstep)
      exact ⟨ins, hd, hstate.symm⟩

theorem lastSeq_le (h : step cfg lib c mv = some c') (r : UInt64) (key : List UInt8) :
    ((c.reps r).state.keyDep key).lastSeq ≤ ((c'.reps r).state.keyDep key).lastSeq := by
  obtain heq | ⟨ins, -, -, -, heq⟩ := root_step h r key
  · rw [State.keyDep, State.keyDep, heq]
    exact UInt64.le_refl _
  · rw [keyDep_of_root heq]
    obtain ⟨hlt, hseq, -⟩ | ⟨-, hseq, -⟩ := update_cases ((c.reps r).state.keyDep key) ins
    · rw [hseq]
      exact UInt64.le_of_lt hlt
    · rw [hseq]
      exact UInt64.le_refl _

theorem Following.latest_step (hf : c.Following cfg) (h : step cfg lib c mv = some c')
    (hv : c'.Voted r d) : d.Seq ≤ ((c'.reps r).state.keyDep d.Y.Key).lastSeq := by
  obtain hold | ⟨rfl, hnew⟩ := voted_step h hv
  · exact UInt64.le_trans (hf.latest r d hold) (lastSeq_le h r _)
  · obtain ⟨ins, rfl, hstate⟩ := hnew.storeCmd h
    have hkey : ins.decision.Y.Key = ins.Y.Key := rfl
    have hroot := root_storeCmd (c.reps mv.r).state ins ins.decision.Y.Key
    rw [if_pos hkey] at hroot
    rw [hstate, keyDep_of_root hroot]
    obtain ⟨-, hseq, -⟩ | ⟨hle, hseq, -⟩ :=
      update_cases ((c.reps mv.r).state.keyDep ins.decision.Y.Key) ins
    · rw [hseq]
      exact UInt64.le_refl _
    · rw [hseq]
      exact hle

theorem Following.covers_new (hunion : lib.Unites)
    (hf : c.Following cfg) (hc : c.Calls cfg) (hrec : c.Recorded) (hok : c.Smooth cfg mv)
    (ha : c.Voted mv.r a) (hb : NewVote lib c mv b) (hkey : a.Y.Key = b.Y.Key)
    (hpos : 0 < a.Seq) : c.Covers a b := by
  cases hb with
  | handler req ins hact _ _ hins hd =>
    subst hd
    have hinskey : ins.Y.Key = req.Y.Key := by
      obtain ⟨seq, deps, rfl⟩ := preAccepted_attrs hins
      rfl
    have hle := hf.latest mv.r a ha
    rw [hkey.trans hinskey] at hle
    obtain hnone | ⟨d, hd, -, hid, hdkey, hseq⟩ := hrec mv.r req.Y.Key
    · rw [keyDep_of_none hnone] at hle
      exact absurd (UInt64.lt_of_lt_of_le hpos hle) (UInt64.lt_irrefl _)
    · refine ⟨d, hd, ?_, hdkey.trans hinskey.symm, ?_⟩
      · exact (State.mem_preAccepted_deps hunion hins).2 (.inl hid)
      · rw [hseq]
        exact hle
  | leader k ins hact hk hd =>
    subst hd
    rw [Smooth, hact] at hok
    dsimp only at hok
    rw [hk] at hok
    have hcall := hc.ok mv.r k
    rw [hk] at hcall
    obtain ⟨m, hm, hv⟩ := ha
    exact hcall.2.2.upper a.Seq hpos (hok m hm _ hv rfl hkey)

theorem Following.covers_step
    (hunion : lib.Unites)
    (hf : c.Following cfg) (hc : c.Calls cfg) (hrec : c.Recorded)
    (h : step cfg lib c mv = some c')
    (hok : c.Smooth cfg mv) (ha : c'.Voted r a) (hb : c'.Voted r b) (hne : a.I ≠ b.I)
    (hkey : a.Y.Key = b.Y.Key) (hpos : 0 < a.Seq) (hpos' : 0 < b.Seq) :
    c'.Covers a b ∨ c'.Covers b a := by
  have hg := grows_step h
  obtain haold | ⟨hr, hanew⟩ := voted_step h ha
  · obtain hbold | ⟨rfl, hbnew⟩ := voted_step h hb
    · exact (hf.covers r a b haold hbold hne hkey hpos hpos').imp hg.covers hg.covers
    · exact .inl (hg.covers (hf.covers_new hunion hc hrec hok haold hbnew hkey hpos))
  · obtain hbold | ⟨-, hbnew⟩ := voted_step h hb
    · subst hr
      exact .inr (hg.covers (hf.covers_new hunion hc hrec hok hbold hanew hkey.symm hpos'))
    · rw [hanew.unique hbnew] at hne
      exact absurd rfl hne

/-! ## Commits -/

theorem CallOk.undone {pc : Pc} {i : InstanceId} (h : c.CallOk cfg r pc)
    (hown : pc.own r = some i)
    (hd : c.Done d) : d.I ≠ i := by
  cases pc with
  | idle | preparing => cases hown
  | interf y idx =>
    cases hown
    exact h d hd.told
  | next n =>
    cases n with
    | phase1 ins =>
      cases hown
      exact h.1 d hd.told
    | accept ins =>
      cases hown
      exact h.2.2 d hd
    | commit ins =>
      cases hown
      exact h.1.undone hd
    | stop => cases hown
  | preAccepting ins =>
    cases hown
    exact Proposed.undone h hd
  | accepting ins =>
    cases hown
    exact h.2.2 d hd

theorem done_step (h : step cfg lib c mv = some c') (hd : c'.Done d) : c.Done d ∨
    ∃ k ins, mv.act = .go k ∧ (c.reps mv.r).calls k = .next (.commit ins) ∧
      d = ins.decision := by
  obtain ⟨m, hm, hd⟩ := hd
  rw [soup_step h] at hm
  rcases List.mem_append.1 hm with hm | hm
  · exact .inl ⟨m, hm, hd⟩
  · cases Sends.of_mem hm with
    | commit k ins ha hk =>
      cases hd
      exact .inr ⟨k, ins, ha, hk, rfl⟩
    | preAccepted | preAccept | accepted | prepared | prepare | accept => cases hd

theorem done_commit (h : step cfg lib c mv = some c') (ha : mv.act = .go k)
    (hk : (c.reps mv.r).calls k = .next (.commit ins)) : c'.Done ins.decision := by
  refine ⟨.commit mv.r ins.req, ?_, rfl⟩
  rw [soup_step h, sends, ha]
  dsimp only
  rw [hk]
  exact List.mem_append_right _ (List.mem_singleton_self _)

theorem told_commit (h : step cfg lib c mv = some c') (ha : mv.act = .go k)
    (hk : (c.reps mv.r).calls k = .next (.commit ins)) (he : c'.Told e) :
    c.Told e ∨ e = ins.decision := by
  obtain he | ⟨m, hm, he⟩ := he.of_step h
  · exact .inl he
  · rw [sends, ha] at hm
    dsimp only at hm
    rw [hk] at hm
    cases List.mem_singleton.1 hm
    cases he
    exact .inr rfl

theorem Clear.seq (h : c.Clear a b) (he : c.Told e) (hi : e.I = b.I) (hle : a.Seq ≤ e.Seq) :
    a.Seq ≤ b.Seq := by
  obtain ⟨m, hm, he⟩ := he
  exact (h m hm e he hle).1 hi

theorem Clear.deps (h : c.Clear a b) (he : c.Told e) (hi : some e.I ∈ b.Deps)
    (hle : a.Seq ≤ e.Seq) : e.I = a.I ∨ ∃ d, c.Done d ∧ d.I = e.I := by
  obtain ⟨m, hm, he⟩ := he
  apply ((h m hm e he hle).2 hi).imp id
  rintro ⟨m, hm, d, hd, hi⟩
  exact ⟨d, ⟨m, hm, hd⟩, hi⟩

theorem Smooth.commit (hok : c.Smooth cfg mv) (ha : mv.act = .go k)
    (hk : (c.reps mv.r).calls k = .next (.commit ins)) :
    (∀ d, c.Done d → d.Y.Key = ins.Y.Key → c.Clear d ins.decision ∧ c.Clear ins.decision d) ∧
      (cfg.n % 2 = 1 ∨ cfg.n < 2 * (c.voters ins).length) := by
  rw [Smooth, ha] at hok
  dsimp only at hok
  rw [hk] at hok
  refine ⟨?_, hok.2⟩
  rintro d ⟨m, hm, hd⟩ hkey
  exact hok.1 m hm d hd hkey

/-- A replica that pre-accepts a committed instance late does not hide another one with it. -/
theorem Smooth.late {req : PreAcceptReq} {u : Decision} (hok : c.Smooth cfg mv)
    (ha : mv.act = .preAccept req) (hgrant : (c.reps mv.r).state.Grants lib.toSlices req)
    (hins : (c.reps mv.r).state.preAccepted lib.toSlices req = some ins) (hu : c.Done u)
    (hi : u.I = req.I) (hd : c.Done d) (hkey : d.Y.Key = u.Y.Key) (hle : d.Seq ≤ ins.Seq) :
    d.Seq ≤ u.Seq := by
  obtain ⟨m, hm, hu⟩ := hu
  obtain ⟨m', hm', hd⟩ := hd
  rw [Smooth, ha] at hok
  obtain ⟨curr, hcurr, hstate⟩ | hnone := hok.2
  · obtain ⟨resp, hresp, hgranted⟩ := hgrant
    rw [State.preAccept, Option.mem_def.1 hcurr] at hresp
    dsimp only at hresp
    rw [if_pos (.inr hstate)] at hresp
    cases hresp
    cases hgranted
  · rw [State.preAccepted_seq hins] at hle
    rw [State.getInterf_seq] at hnone
    exact hnone m hm u hu hi m' hm' d hd hkey hle

theorem Proposed.least (hp : c.Proposed r ins) (he : c.Told e) (hi : e.I = ins.I) :
    e.Y = ins.Y ∧ ins.Seq ≤ e.Seq := by
  obtain ⟨m, hm, he⟩ := he
  obtain ⟨habout, hle⟩ := hp.only m hm e he hi
  refine ⟨?_, hle⟩
  cases m with
  | preAccept src req =>
    cases habout
    cases he
    rfl
  | preAccepted src who req resp =>
    cases habout
    obtain ⟨-, rfl⟩ := Msg.preAccepted_tells.1 he
    rfl
  | accept | commit => exact absurd habout id
  | prepare | accepted | prepared => cases he

theorem Following.told_late (hf : c.Following cfg) (hc : c.Calls cfg)
    (h : step cfg lib c mv = some c') (hok : c.Smooth cfg mv) (hd : c.Done d) (he : c'.Told e)
    (hi : e.I = d.I) : c.Told e ∨ e.Y = d.Y ∧ d.Seq ≤ e.Seq ∧
      ∃ req ins, mv.act = .preAccept req ∧ d.I = req.I ∧
        (c.reps mv.r).state.Grants lib.toSlices req ∧
        (c.reps mv.r).state.preAccepted lib.toSlices req = some ins ∧ e.Seq = ins.Seq := by
  obtain he | ⟨m, hm, htells⟩ := he.of_step h
  · exact .inl he
  · right
    obtain ⟨src, who, req, resp, rfl, hI, hle, hreq⟩ | ⟨k, -, hown⟩ :=
      tells_cases h hok hm htells
    · obtain ⟨hy, hseq⟩ := hf.least d req.decision hd ⟨_, hreq, rfl⟩ (hI.symm.trans hi)
      obtain ⟨hok, rfl⟩ := Msg.preAccepted_tells.1 htells
      cases Sends.of_mem hm with
      | preAccepted _ _ ha hresp =>
        obtain ⟨ins, hins, rfl⟩ := State.granted_of_ok hresp hok
        exact ⟨hy, UInt64.le_trans hseq hle, req, ins, ha, hi.symm, ⟨_, hresp, hok⟩, hins, rfl⟩
    · exact absurd hi.symm ((hc.ok _ _).undone hown hd)

theorem Calls.commit (hc : c.Calls cfg) (hk : (c.reps mv.r).calls k = .next (.commit ins)) :
    ins.I.Rid = mv.r ∧ (∀ d, c.Done d → d.I ≠ ins.I) ∧ c.Proposed mv.r ins ∧
      (cfg.n % 2 = 1 → cfg.n < 2 * (c.voters ins).length) := by
  have hown : ((c.reps mv.r).calls k).own mv.r = some ins.I := by
    rw [hk]
    rfl
  have hcall := hc.ok mv.r k
  rw [hk] at hcall
  exact ⟨(hc.own _ _ _ hown).1, fun d hd => hcall.1.undone hd, hcall⟩

theorem Following.unique_step (hf : c.Following cfg) (hc : c.Calls cfg)
    (h : step cfg lib c mv = some c') (hd : c'.Done d) (he : c'.Done e)
    (hi : d.I = e.I) : d = e := by
  obtain hdold | ⟨k, ins, ha, hk, rfl⟩ := done_step h hd
  · obtain heold | ⟨k, ins, ha, hk, rfl⟩ := done_step h he
    · exact hf.unique d e hdold heold hi
    · exact absurd hi ((hc.commit hk).2.1 d hdold)
  · obtain heold | ⟨k', ins', ha', hk', rfl⟩ := done_step h he
    · exact absurd hi.symm ((hc.commit hk).2.1 e heold)
    · cases ha.symm.trans ha'
      cases hk.symm.trans hk'
      rfl

theorem Following.least_step (hf : c.Following cfg) (hc : c.Calls cfg)
    (h : step cfg lib c mv = some c') (hok : c.Smooth cfg mv) (hd : c'.Done d) (he : c'.Told e)
    (hi : e.I = d.I) : e.Y = d.Y ∧ d.Seq ≤ e.Seq := by
  obtain hold | ⟨k, ins, ha, hk, rfl⟩ := done_step h hd
  · obtain he | ⟨hy, hle, -⟩ := hf.told_late hc h hok hold he hi
    · exact hf.least d e hold he hi
    · exact ⟨hy, hle⟩
  · obtain he | rfl := told_commit h ha hk he
    · exact (hc.commit hk).2.2.1.least he hi
    · exact ⟨rfl, UInt64.le_refl _⟩

theorem Following.shows_step {u t : Decision} (hf : c.Following cfg) (hc : c.Calls cfg)
    (h : step cfg lib c mv = some c') (hok : c.Smooth cfg mv) (hu : c'.Done u) (hd : c'.Done d)
    (hkey : d.Y.Key = u.Y.Key) (ht : c'.Told t) (hi : t.I = u.I) (hle : d.Seq ≤ t.Seq) :
    d.Seq ≤ u.Seq := by
  obtain huold | ⟨k, ins, ha, hk, rfl⟩ := done_step h hu
  · obtain hdold | ⟨k, ins, ha, hk, rfl⟩ := done_step h hd
    · obtain htold | ⟨-, -, req, ins, ha, hreq, hgrant, hins, hseq⟩ :=
        hf.told_late hc h hok huold ht hi
      · exact hf.shows u d t huold hdold hkey htold hi hle
      · rw [hseq] at hle
        exact hok.late ha hgrant hins huold hreq hdold hkey hle
    · obtain htold | rfl := told_commit h ha hk ht
      · exact ((hok.commit ha hk).1 u huold hkey.symm).2.seq htold hi hle
      · exact absurd hi.symm ((hc.commit hk).2.1 u huold)
  · obtain htold | rfl := told_commit h ha hk ht
    · obtain hdold | ⟨k', ins', ha', hk', rfl⟩ := done_step h hd
      · exact ((hok.commit ha hk).1 d hdold hkey).1.seq htold hi hle
      · cases ha.symm.trans ha'
        cases hk.symm.trans hk'
        exact UInt64.le_refl _
    · exact hle

theorem Following.lower_step (hf : c.Following cfg) (hc : c.Calls cfg)
    (h : step cfg lib c mv = some c') (hd : c'.Done d) {w : Option InstanceId}
    (hw : w ∈ d.Deps) : ∃ e, c'.Told e ∧ w = some e.I ∧ e.Y.Key = d.Y.Key ∧ e.Seq < d.Seq := by
  have hg := grows_step h
  obtain hold | ⟨k, ins, -, hk, rfl⟩ := done_step h hd
  · obtain ⟨e, he, hrest⟩ := hf.lower d hold w hw
    exact ⟨e, hg.told he, hrest⟩
  · obtain ⟨e, he, hrest⟩ := (hc.commit hk).2.2.1.below.lower w hw
    exact ⟨e, hg.told he, hrest⟩

theorem Smooth.quorum (hok : c.Smooth cfg mv) (hc : c.Calls cfg) (ha : mv.act = .go k)
    (hk : (c.reps mv.r).calls k = .next (.commit ins)) : ∃ l : List UInt64, l.Nodup ∧
      cfg.n < 2 * l.length ∧ ∀ r ∈ l, ∃ v, c.Voted r v ∧ v.I = ins.I ∧ v.Deps = ins.Deps :=
  ⟨c.voters ins, List.nodup_dedup _, (hok.commit ha hk).2.elim (hc.commit hk).2.2.2 id,
    fun _ hr => mem_voters.1 hr⟩

theorem Following.quorum_step (hf : c.Following cfg) (hc : c.Calls cfg)
    (h : step cfg lib c mv = some c') (hok : c.Smooth cfg mv) (hd : c'.Done d) :
    ∃ l : List UInt64, l.Nodup ∧ cfg.n < 2 * l.length ∧
      ∀ r ∈ l, ∃ v, c'.Voted r v ∧ v.I = d.I ∧ v.Deps = d.Deps := by
  have hvoted {l : List UInt64} (hall : ∀ r ∈ l, ∃ v,
      c.Voted r v ∧ v.I = d.I ∧ v.Deps = d.Deps) :
      ∀ r ∈ l, ∃ v, c'.Voted r v ∧ v.I = d.I ∧ v.Deps = d.Deps := by
    intro r hr
    obtain ⟨v, hv, hrest⟩ := hall r hr
    exact ⟨v, (grows_step h).voted hv, hrest⟩
  obtain hold | ⟨k, ins, ha, hk, rfl⟩ := done_step h hd
  · obtain ⟨l, hl, hlen, hall⟩ := hf.quorum d hold
    exact ⟨l, hl, hlen, hvoted hall⟩
  · obtain ⟨l, hl, hlen, hall⟩ := hok.quorum hc ha hk
    exact ⟨l, hl, hlen, hvoted hall⟩

theorem Following.member_step (hf : c.Following cfg) (h : step cfg lib c mv = some c')
    (hv : c'.Voted r d) : r.toNat < cfg.n := by
  obtain hold | ⟨rfl, -⟩ := voted_step h hv
  · exact hf.member r d hold
  · exact (step_eq h).1

theorem majorities_meet {l l' : List UInt64} {n : Nat} (hl : l.Nodup) (hl' : l'.Nodup)
    (hlt : ∀ r ∈ l, r.toNat < n) (hlt' : ∀ r ∈ l', r.toNat < n) (hlen : n < 2 * l.length)
    (hlen' : n < 2 * l'.length) : ∃ r ∈ l, r ∈ l' := by
  by_contra hnone
  have hnodup : (l ++ l').Nodup := hl.append hl' fun r hr hr' => hnone ⟨r, hr, hr'⟩
  have hmap : ((l ++ l').map UInt64.toNat).Nodup :=
    hnodup.map fun a b hab => UInt64.toNat_inj.1 hab
  have hsub : (l ++ l').map UInt64.toNat ⊆ List.range n := by
    intro m hm
    obtain ⟨r, hr, rfl⟩ := List.mem_map.1 hm
    rw [List.mem_range]
    exact (List.mem_append.1 hr).elim (hlt r) (hlt' r)
  have hle := (List.subperm_of_subset hmap hsub).length_le
  rw [List.length_map, List.length_append, List.length_range] at hle
  omega

/-- Of an instance that commits and a committed one of its key, one is linked to the other. -/
theorem Following.linked_new (hf : c.Following cfg) (hc : c.Calls cfg)
    (h : step cfg lib c mv = some c')
    (hok : c.Smooth cfg mv) (ha : mv.act = .go k)
    (hk : (c.reps mv.r).calls k = .next (.commit ins))
    (hd : c.Done d) (hkey : d.Y.Key = ins.Y.Key) :
    c'.Linked d ins.decision ∨ c'.Linked ins.decision d := by
  have hg := grows_step h
  obtain ⟨-, hundone, hp, -⟩ := hc.commit hk
  obtain ⟨hclear, hclear'⟩ := (hok.commit ha hk).1 d hd hkey
  obtain ⟨l, hl, hlen, hall⟩ := hf.quorum d hd
  obtain ⟨l', hl', hlen', hall'⟩ := hok.quorum hc ha hk
  obtain ⟨r, hr, hr'⟩ := majorities_meet hl hl'
    (fun r hr => by obtain ⟨v, hv, -⟩ := hall r hr; exact hf.member r v hv)
    (fun r hr => by obtain ⟨v, hv, -⟩ := hall' r hr; exact hf.member r v hv) hlen hlen'
  obtain ⟨v, hv, hvi, hvdeps⟩ := hall r hr
  obtain ⟨v', hv', hvi', hvdeps'⟩ := hall' r hr'
  obtain ⟨hy, hle⟩ := hf.least d v hd hv.told hvi
  obtain ⟨hy', hle'⟩ := hp.least hv'.told hvi'
  have hvkey : v.Y.Key = v'.Y.Key := by rw [hy, hy', hkey]
  have hne : v.I ≠ v'.I := by
    rw [hvi, hvi']
    exact hundone d hd
  have hpos := UInt64.lt_of_lt_of_le (hf.pos d hd) hle
  have hpos' := UInt64.lt_of_lt_of_le hp.below.pos hle'
  obtain ⟨t, ht, hmem, htkey, hseq⟩ | ⟨t, ht, hmem, htkey, hseq⟩ :=
    hf.covers r v v' hv hv' hne hvkey hpos hpos'
  · left
    rw [hvdeps'] at hmem
    have hseq := UInt64.le_trans hle hseq
    obtain hi | ⟨u, hu, hi⟩ := hclear.deps ht hmem hseq
    · refine ⟨d, hg.done hd, ?_, UInt64.le_refl _⟩
      rw [← hi]
      exact hmem
    · have hukey : d.Y.Key = u.Y.Key := by
        rw [← (hf.least u t hu ht hi.symm).1, htkey, hy', hkey]
      refine ⟨u, hg.done hu, ?_, hf.shows u d t hu hd hukey ht hi.symm hseq⟩
      rw [hi]
      exact hmem
  · right
    rw [hvdeps] at hmem
    have hseq := UInt64.le_trans hle' hseq
    obtain hi | ⟨u, hu, hi⟩ := hclear'.deps ht hmem hseq
    · refine ⟨ins.decision, ?_, ?_, UInt64.le_refl _⟩
      · exact done_commit h ha hk
      · rw [← hi]
        exact hmem
    · have hukey : u.Y.Key = ins.Y.Key := by
        rw [← (hf.least u t hu ht hi.symm).1, htkey, hy, hkey]
      refine ⟨u, hg.done hu, ?_, ((hok.commit ha hk).1 u hu hukey).2.seq ht hi.symm hseq⟩
      rw [hi]
      exact hmem

theorem Grows.linked (hg : c.Grows c') (h : c.Linked a b) : c'.Linked a b := by
  obtain ⟨d, hd, hrest⟩ := h
  exact ⟨d, hg.done hd, hrest⟩

theorem Following.linked_step (hf : c.Following cfg) (hc : c.Calls cfg)
    (h : step cfg lib c mv = some c') (hok : c.Smooth cfg mv) (ha : c'.Done a) (hb : c'.Done b)
    (hne : a.I ≠ b.I) (hkey : a.Y.Key = b.Y.Key) : c'.Linked a b ∨ c'.Linked b a := by
  have hg := grows_step h
  obtain haold | ⟨k, ins, hact, hk, rfl⟩ := done_step h ha
  · obtain hbold | ⟨k, ins, hact, hk, rfl⟩ := done_step h hb
    · exact (hf.linked a b haold hbold hne hkey).imp hg.linked hg.linked
    · exact hf.linked_new hc h hok hact hk haold hkey
  · obtain hbold | ⟨k', ins', hact', hk', rfl⟩ := done_step h hb
    · exact (hf.linked_new hc h hok hact hk hbold hkey.symm).symm
    · cases hact.symm.trans hact'
      cases hk.symm.trans hk'
      exact absurd rfl hne

theorem Following.stored_step (hf : c.Following cfg) (hc : c.Calls cfg)
    (h : step cfg lib c mv = some c') {i : InstanceId} (hi : (c'.reps r).state.cmds i = some ins)
    (hs : ins.State = .committed) : c'.Done ⟨i, ins.Y, ins.Seq, ins.Deps⟩ := by
  have hg := grows_step h
  obtain ⟨-, hrec, -⟩ := step_eq h
  obtain ⟨-, heq⟩ | ⟨rfl, hstep⟩ := reps_step h r
  · rw [heq] at hi
    exact hg.done (hf.stored r i ins hi hs)
  · obtain ⟨new, hst, heq⟩ | ⟨-, heq⟩ := Replica.state_step hstep
    · rw [heq] at hi
      by_cases hne : i = new.I
      · subst hne
        rw [storeCmd_self] at hi
        cases hi
        generalize ha : mv.act = a at hst
        rw [Receives, ha] at hrec
        cases hst with
        | accept | acceptPhase => cases hs
        | preAccept req _ hins =>
          obtain ⟨seq, deps, rfl⟩ := preAccepted_attrs hins
          cases hs
        | commit req => exact ⟨_, hg _ hrec.2, rfl⟩
        | phase1 k _ hk =>
          have hcall := hc.ok mv.r k
          rw [hk] at hcall
          cases hcall.2.1.symm.trans hs
        | commitPhase k old hk =>
          have hdone := done_commit h ha hk
          exact hdone
      · rw [storeCmd_of_ne _ hne] at hi
        exact hg.done (hf.stored mv.r i ins hi hs)
    · have hcmds : (c'.reps mv.r).state.cmds = (c.reps mv.r).state.cmds := by
        obtain heq | ⟨k, y, -, heq⟩ := heq
        · rw [heq]
        · rw [heq]
          rfl
      rw [hcmds] at hi
      exact hg.done (hf.stored mv.r i ins hi hs)

theorem Following.keepsCommitted (hf : c.Following cfg) (hc : c.Calls cfg)
    (r : UInt64) (a : Act) : (c.reps r).KeepsCommitted a := by
  rintro ins hst ⟨old, hold, hs⟩
  have hd := hf.stored r ins.I old hold hs
  cases a with
  | go k =>
    have hown : ((c.reps r).calls k).own r = some ins.I := by
      rw [Replica.storing] at hst
      split at hst
      · next hk =>
        cases hst
        rw [hk]
        rfl
      · next hk =>
        cases hst
        rw [hk]
        rfl
      · cases hst
    exact (hc.ok r k).undone hown hd rfl
  | preAccept | accept | commit | prepare | request | recover | preAccepts | accepts
  | prepares =>
    cases hst

theorem Following.kept_step (hf : c.Following cfg) (hc : c.Calls cfg)
    (h : step cfg lib c mv = some c') (hd : c'.Done d) :
    (c'.reps d.I.Rid).state.cmds.Committed d.I := by
  obtain hold | ⟨k, ins, ha, hk, rfl⟩ := done_step h hd
  · have hkept := hf.kept d hold
    obtain ⟨-, heq⟩ | ⟨-, hstep⟩ := reps_step h d.I.Rid
    · rwa [heq]
    · exact Replica.committed_step hstep (hf.keepsCommitted hc _ _) hkept
  · have hrid : ins.decision.I.Rid = mv.r := (hc.commit hk).1
    rw [hrid]
    obtain ⟨hr, -⟩ | ⟨-, hstep⟩ := reps_step h mv.r
    · exact absurd rfl hr
    · rw [ha, Replica.step, Replica.go, hk] at hstep
      have hstate := congrArg Replica.state (Option.some.inj hstep)
      rw [← hstate]
      exact ⟨_, storeCmd_self .., rfl⟩

theorem Following.step (hunion : lib.Unites)
    (hf : c.Following cfg) (hc : c.Calls cfg) (hrec : c.Recorded)
    (h : step cfg lib c mv = some c')
    (hok : c.Smooth cfg mv) : c'.Following cfg where
  latest _ _ hv := hf.latest_step h hv
  covers _ _ _ ha hb := hf.covers_step hunion hc hrec h hok ha hb
  least _ _ hd he hi := hf.least_step hc h hok hd he hi
  unique _ _ hd he hi := hf.unique_step hc h hd he hi
  pos d hd := by
    obtain hold | ⟨k, ins, -, hk, rfl⟩ := done_step h hd
    · exact hf.pos d hold
    · exact (hc.commit hk).2.2.1.below.pos
  lower _ hd _ hw := hf.lower_step hc h hd hw
  quorum _ hd := hf.quorum_step hc h hok hd
  member _ _ hv := hf.member_step h hv
  shows _ _ _ hu hd hkey ht hi hle := hf.shows_step hc h hok hu hd hkey ht hi hle
  linked _ _ ha hb hne hkey := hf.linked_step hc h hok ha hb hne hkey
  stored _ _ _ hi hs := hf.stored_step hc h hi hs
  kept _ hd := hf.kept_step hc h hd

theorem not_done_start : ¬ Cluster.start.Done d := by
  rintro ⟨m, hm, -⟩
  cases hm

theorem not_voted_start : ¬ Cluster.start.Voted r d := by
  rintro ⟨m, hm, -⟩
  cases hm

theorem Following.start (cfg : Config) : Cluster.start.Following cfg where
  latest _ _ hv := absurd hv not_voted_start
  covers _ _ _ hv := absurd hv not_voted_start
  least _ _ hd := absurd hd not_done_start
  unique _ _ hd := absurd hd not_done_start
  pos _ hd := absurd hd not_done_start
  lower _ hd := absurd hd not_done_start
  quorum _ hd := absurd hd not_done_start
  member _ _ hv := absurd hv not_voted_start
  shows _ _ _ hu := absurd hu not_done_start
  linked _ _ ha := absurd ha not_done_start
  stored _ _ _ hi := nomatch hi
  kept _ hd := absurd hd not_done_start

/-! ## Paths -/

theorem Following.committedDep (hf : c.Following cfg) {i j : InstanceId} :
    c.CommittedDep i j ↔ ∃ d, c.Done d ∧ d.I = i ∧ some j ∈ d.Deps := by
  constructor
  · rintro ⟨r, ins, hi, hs, hj⟩
    exact ⟨_, hf.stored r i ins hi hs, rfl, hj⟩
  · rintro ⟨d, hd, rfl, hj⟩
    obtain ⟨ins, hi, hs⟩ := hf.kept d hd
    have heq := hf.unique _ d (hf.stored _ _ ins hi hs) hd rfl
    rw [← heq] at hj
    exact ⟨_, ins, hi, hs, hj⟩

/-- The `Seq` of each committed instance, which its dependencies are below. -/
theorem Following.rank (hf : c.Following cfg) :
    ∃ rank : InstanceId → Nat, ∀ d, c.Done d → rank d.I = d.Seq.toNat := by
  classical
  refine ⟨fun i => if h : ∃ d, c.Done d ∧ d.I = i then h.choose.Seq.toNat else 0, ?_⟩
  intro d hd
  have hex : ∃ e, c.Done e ∧ e.I = d.I := ⟨d, hd, rfl⟩
  have hchosen := hex.choose_spec
  dsimp only
  rw [dif_pos hex, hf.unique _ d hchosen.1 hd hchosen.2]

theorem Following.paths (hf : c.Following cfg) : c.Ordered := by
  intro r r' i i' ins ins' hne hi hi' hs hs' hinterf
  obtain ⟨rank, hrank⟩ := hf.rank
  -- the committed instances of the key, and the edges between them
  let S (i : InstanceId) : Prop := ∃ d, c.Done d ∧ d.I = i ∧ d.Y.Key = ins.Y.Key
  let E (i j : InstanceId) : Prop := c.CommittedDep i j ∧ S j
  have hlower (a b : InstanceId) (hab : E a b) : rank b < rank a := by
    obtain ⟨hdep, e, he, rfl, -⟩ := hab
    obtain ⟨d, hd, rfl, hmem⟩ := hf.committedDep.1 hdep
    obtain ⟨t, ht, hti, -, hlt⟩ := hf.lower d hd (some e.I) hmem
    have hle := (hf.least e t he ht (Option.some.inj hti).symm).2
    rw [hrank d hd, hrank e he]
    exact UInt64.lt_iff_toNat_lt.1 (UInt64.lt_of_le_of_lt hle hlt)
  have hlinked {d e : Decision} (hd : c.Done d) (he : c.Done e) (hkey : e.Y.Key = ins.Y.Key)
      (h : c.Linked d e) : ∃ w, E e.I w ∧ rank d.I ≤ rank w := by
    obtain ⟨t, ht, hmem, hle⟩ := h
    obtain ⟨u, hu, hui, hukey, -⟩ := hf.lower e he (some t.I) hmem
    have hy := (hf.least t u ht hu (Option.some.inj hui).symm).1
    refine ⟨t.I, ⟨hf.committedDep.2 ⟨e, he, rfl, hmem⟩, t, ht, rfl, ?_⟩, ?_⟩
    · rw [← hy, hukey, hkey]
    · rw [hrank d hd, hrank t ht]
      exact UInt64.le_iff_toNat_le.1 hle
  have hpath : Relation.TransGen E i i' ∨ Relation.TransGen E i' i := by
    refine Graph.connected (S := S) (fun _ _ _ hab => hab.2) (fun a b _ hab => hlower a b hab) ?_
      ⟨_, hf.stored r i ins hi hs, rfl, rfl⟩ ⟨_, hf.stored r' i' ins' hi' hs',
        rfl, hinterf.1.symm⟩ hne
    rintro a b ⟨d, hd, rfl, hkey⟩ ⟨e, he, rfl, hekey⟩ hne
    exact (hf.linked d e hd he hne (hkey.trans hekey.symm)).imp (hlinked hd he hekey)
      (hlinked he hd hkey)
  have hedge : E ≤ c.CommittedDep := fun _ _ hab => hab.1
  exact hpath.imp (Relation.TransGen.mono hedge _ _) (Relation.TransGen.mono hedge _ _)

/-- In every run whose steps are smooth, interfering commands are ordered by their
dependencies. -/
theorem ordered (cfg : Config) (lib : Litu)
    (hunion : lib.Unites) (c : Cluster)
    (h : (machine cfg lib).ReachIf (Smooth cfg) c) : c.Ordered := by
  have hinv : c.Calls cfg ∧ c.Recorded ∧ c.Following cfg := by
    refine h.invariant (I := fun c => c.Calls cfg ∧ c.Recorded ∧ c.Following cfg) ?_ ?_
    · rintro _ rfl
      exact ⟨.start cfg, .start, .start cfg⟩
    · rintro s a t ⟨hc, hrec, hf⟩ hok hst
      have hc' := hc.step hrec hst hok
      exact ⟨hc', hrec.step hst hc'.pos, hf.step hunion hc hrec hst hok⟩
  exact hinv.2.2.paths

def secondWrite : AcceptReq := ⟨⟨1, 0, 0⟩, ⟨.w, [1], some [3]⟩, 2, [some ⟨0, 1⟩], ⟨0, 2⟩⟩

def twoCommits : List Move :=
  fastCommit ++ [⟨0, 0, .request 0 secondWrite.Y⟩, ⟨0, 0, .go 0⟩, ⟨0, 0, .go 0⟩,
    ⟨1, 0, .preAccept secondWrite⟩,
    ⟨0, 0, .preAccepts 0
      [some (1, .granted (secondWrite.toInstance .preAccepted)), none]⟩,
    ⟨0, 0, .go 0⟩]

theorem ordered_twoCommits : ∃ c, (machine three .plain).ReachIf (Smooth three) c ∧
    (c.reps 0).state.cmds ⟨0, 1⟩ = some (write.toInstance .committed) ∧
    (c.reps 0).state.cmds ⟨0, 2⟩ = some (secondWrite.toInstance .committed) ∧
    write.Y.Interferes secondWrite.Y ∧ c.Ordered :=
  have h := ⟨start, twoCommits, rfl, .of_execIf rfl⟩
  ⟨_, h, rfl, rfl, ⟨rfl, .inl rfl⟩, ordered three .plain plain_unites _ h⟩

/-- What the first replica proposes if it looks for its last instance before it stores the
first. -/
def rival : AcceptReq := ⟨⟨1, 0, 0⟩, ⟨.w, [1], some [3]⟩, 1, [], ⟨0, 2⟩⟩

/-- Two calls of a leader look for interfering instances before either of them stores its own,
and each hears of another replica. -/
def raced : List Move :=
  [⟨0, 0, .request 0 write.Y⟩, ⟨0, 0, .request 1 rival.Y⟩, ⟨0, 0, .go 0⟩, ⟨0, 0, .go 1⟩,
    ⟨0, 0, .go 0⟩, ⟨0, 0, .go 1⟩, ⟨1, 0, .preAccept write⟩, ⟨2, 0, .preAccept rival⟩,
    ⟨0, 0, .preAccepts 0 [some (1, .granted (write.toInstance .preAccepted)), none]⟩,
    ⟨0, 0, .preAccepts 1 [some (2, .granted (rival.toInstance .preAccepted)), none]⟩,
    ⟨0, 0, .go 0⟩, ⟨0, 0, .go 1⟩]

theorem reps_run {ok : Cluster → Move → Prop} {s t : Cluster} {as : List Move}
    (h : (machine cfg lib).RunIf ok s as t) (hr : ∀ mv ∈ as, mv.r ≠ r) :
    t.reps r = s.reps r := by
  induction h with
  | nil => rfl
  | cons _ hst _ ih =>
    rw [List.forall_mem_cons] at hr
    obtain ⟨-, heq⟩ | ⟨he, -⟩ := reps_step hst r
    · exact (ih hr.2).trans heq
    · exact absurd he.symm hr.1

def Unrecovered (_ : Cluster) (mv : Move) : Prop :=
  match mv.act with
  | .recover _ _ => False
  | _ => True

instance (c : Cluster) (mv : Move) : Decidable (c.Unrecovered mv) := by
  rcases mv with ⟨r, src, ⟨⟩⟩ <;> dsimp only [Unrecovered] <;> infer_instance

theorem not_ordered : ¬ ∀ (cfg : Config) (lib : Litu) (c : Cluster),
    lib.Unites →
      (machine cfg lib).ReachIf Unrecovered c → c.Ordered := by
  intro h
  obtain ⟨c, hrun, h01, h02, h11, h12, h21, h22⟩ :
      ∃ c, (machine three .plain).RunIf Unrecovered start raced c ∧
        (c.reps 0).state.cmds ⟨0, 1⟩ = some (write.toInstance .committed) ∧
        (c.reps 0).state.cmds ⟨0, 2⟩ = some (rival.toInstance .committed) ∧
        (c.reps 1).state.cmds ⟨0, 1⟩ = some (write.toInstance .preAccepted) ∧
        (c.reps 1).state.cmds ⟨0, 2⟩ = none ∧ (c.reps 2).state.cmds ⟨0, 1⟩ = none ∧
        (c.reps 2).state.cmds ⟨0, 2⟩ = some (rival.toInstance .preAccepted) :=
    ⟨_, .of_execIf rfl, rfl, rfl, rfl, rfl, rfl, rfl⟩
  -- both are committed without dependencies, at the first replica only
  have hedge (i j : InstanceId) (hi : i = ⟨0, 1⟩ ∨ i = ⟨0, 2⟩) : ¬ c.CommittedDep i j := by
    rintro ⟨r, ins, hins, hs, hj⟩
    by_cases hr : r = 0 ∨ r = 1 ∨ r = 2
    · obtain rfl | rfl | rfl := hr
      all_goals obtain rfl | rfl := hi
      · cases h01.symm.trans hins
        cases hj
      · cases h02.symm.trans hins
        cases hj
      · cases h11.symm.trans hins
        cases hs
      · cases h12.symm.trans hins
      · cases h21.symm.trans hins
      · cases h22.symm.trans hins
        cases hs
    · have hmoves : ∀ mv ∈ raced, mv.r = 0 ∨ mv.r = 1 ∨ mv.r = 2 := by simp [raced]
      have hstill : c.reps r = start.reps r := by
        apply reps_run hrun
        rintro mv hmv rfl
        exact hr (hmoves mv hmv)
      rw [hstill] at hins
      cases hins
  have hpath (i j : InstanceId) (hi : i = ⟨0, 1⟩ ∨ i = ⟨0, 2⟩) :
      ¬ Relation.TransGen c.CommittedDep i j := by
    intro hp
    obtain ⟨k, hk, -⟩ := Relation.TransGen.head'_iff.1 hp
    exact hedge i k hi hk
  obtain hp | hp := h three .plain c plain_unites ⟨start, raced, rfl, hrun⟩ 0 0 ⟨0, 1⟩ ⟨0, 2⟩ _ _
    (by decide) h01 h02 rfl rfl ⟨rfl, .inl rfl⟩
  · exact hpath _ _ (.inl rfl) hp
  · exact hpath _ _ (.inr rfl) hp

end

end Cluster

end Misc.Epaxos
