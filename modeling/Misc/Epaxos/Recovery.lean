import Misc.Epaxos.ExecutionOrder
import Misc.Epaxos.Leader
import Misc.Epaxos.Promise

namespace Misc.Epaxos
set_option autoImplicit true

/-- The results that a replica gets for its requests, in the order in which they arrive. Those of
`Prepare` include its own response, which is given. -/
structure Net where
  preAccept : PreAcceptReq → List (Option PreAcceptResp)
  accept : AcceptReq → List (Option AcceptResp)
  prepare : PrepareReq → PrepareResp → List (Option PrepareResp × Bool)

def commitPhase (s : State) (ins : Instance) : State :=
  s.storeCmd { ins with State := .committed }

def paxosAcceptPhase (ep : Epaxos) (net : Net) (s : State) (ins : Instance) : State × Bool :=
  let ins := { ins with State := .accepted }
  let s := s.storeCmd ins
  match accepted ep ins (net.accept ins.req) with
  | .commit ins => (commitPhase s ins, true)
  | _ => (s, false)

/-- `none` is a panic. -/
def phase1 (ep : Epaxos) (lib : Litu) (net : Net) (s : State) (ins : Instance) :
    Option (State × Bool) :=
  let s := s.storeCmd ins
  (preAccepted ep lib ins (net.preAccept ins.req)).map fun
    | .commit ins => (commitPhase s ins, true)
    | .accept ins => paxosAcceptPhase ep net s ins
    | _ => (s, false)

/-- The phase that a call goes on with. -/
def goOn (ep : Epaxos) (lib : Litu) (net : Net) (s : State) : Next → Option (State × Bool)
  | .commit ins => some (commitPhase s ins, true)
  | .accept ins => some (paxosAcceptPhase ep net s ins)
  | .phase1 ins => phase1 ep lib net s ins
  | .stop => some (s, false)

def explicitPrepare (ep : Epaxos) (lib : Litu) (net : Net) :
    ExplicitPrepare := fun s i maxSeen =>
  let nextBallot := ep.nextBallot maxSeen
  let req : PrepareReq := ⟨nextBallot, i⟩
  (prepared ep lib i nextBallot (net.prepare req (s.prepare req).2)).bind (goOn ep lib net s)

/-- What the state of an instance becomes when it is stored some times, and what the call
returns. -/
structure Effect (s : State) (i : InstanceId) (t : State) (ok : Bool) (row : Option Instance) :
    Prop where
  row : t.cmds i = row
  frame : ∀ id, id ≠ i → t.cmds id = s.cmds id
  commits : ok = true → t.cmds.Committed i

section
variable {ep : Epaxos} {lib : Litu} {net : Net} {s t u : State}
  {i id : InstanceId} {ins : Instance}
  {ok : Bool} {row : Option Instance}

theorem Effect.store (s : State) (ins : Instance) :
    Effect s ins.I (s.storeCmd ins) false (some ins) :=
  ⟨storeCmd_self s ins, fun _ h => storeCmd_of_ne s h, nofun⟩

theorem Effect.commit (s : State) (ins : Instance) :
    Effect s ins.I (commitPhase s ins) true (some { ins with State := .committed }) :=
  ⟨storeCmd_self s _, fun _ h => storeCmd_of_ne s h, fun _ => ⟨_, storeCmd_self s _, rfl⟩⟩

theorem Effect.trans (h : Effect s i t false row) {row' : Option Instance}
    (h' : Effect t i u ok row') : Effect s i u ok row' :=
  ⟨h'.row, fun id hid => (h'.frame id hid).trans (h.frame id hid), h'.commits⟩

/-- What a call does to an instance does not depend on the rest of the state. -/
def Acts (i : InstanceId) (call : State → Option (State × Bool)) : Prop :=
  (∀ s, call s = none) ∨ ∃ ok row, ∀ s, ∃ t, call s = some (t, ok) ∧ Effect s i t ok row

theorem paxosAcceptPhase_acts (ep : Epaxos) (net : Net) (ins : Instance) :
    ∃ ok row, ∀ s, ∃ t, paxosAcceptPhase ep net s ins = (t, ok) ∧ Effect s ins.I t ok row := by
  let stored : Instance := { ins with State := .accepted }
  obtain hstop | ⟨new, ⟨m, rfl⟩, hnew⟩ :=
    accepted_cases ep stored (net.accept stored.req)
  · refine ⟨false, some stored, ?_⟩
    intro s
    rw [paxosAcceptPhase, hstop]
    exact ⟨_, rfl, .store s stored⟩
  · refine ⟨true, some { stored with MaxSeen := m, State := .committed }, ?_⟩
    intro s
    rw [paxosAcceptPhase, hnew]
    exact ⟨_, rfl, (Effect.store s stored).trans (.commit _ { stored with MaxSeen := m })⟩

theorem phase1_acts (ep : Epaxos) (lib : Litu) (net : Net) (ins : Instance) :
    Acts ins.I fun s => phase1 ep lib net s ins := by
  cases hnext : preAccepted ep lib ins (net.preAccept ins.req) with
  | none =>
    left
    intro s
    dsimp only
    rw [phase1, hnext, Option.map_none]
  | some next =>
    right
    have hins {new} (h : next.ins = some new) := preAccepted_ins hnext h
    cases next with
    | phase1 new | stop =>
      refine ⟨false, some ins, ?_⟩
      intro s
      dsimp only
      rw [phase1, hnext]
      exact ⟨_, rfl, .store s ins⟩
    | accept new =>
      obtain ⟨hI, -, -⟩ := hins rfl
      obtain ⟨ok, row, h⟩ := paxosAcceptPhase_acts ep net new
      refine ⟨ok, row, ?_⟩
      intro s
      dsimp only
      rw [phase1, hnext]
      rw [hI] at h
      obtain ⟨t, ht, h⟩ := h (s.storeCmd ins)
      exact ⟨t, congrArg some ht, (Effect.store s ins).trans h⟩
    | commit new =>
      obtain ⟨hI, -, -⟩ := hins rfl
      refine ⟨true, some { new with State := .committed }, ?_⟩
      intro s
      dsimp only
      rw [phase1, hnext]
      exact ⟨_, rfl, (Effect.store s ins).trans (hI ▸ Effect.commit (s.storeCmd ins) new)⟩

theorem goOn_acts (ep : Epaxos) (lib : Litu) (net : Net) {next : Next}
    (h : next.ins = some ins) : Acts ins.I fun s => goOn ep lib net s next := by
  cases next with
  | phase1 new =>
    cases h
    exact phase1_acts ep lib net ins
  | accept new =>
    cases h
    obtain ⟨ok, row, h⟩ := paxosAcceptPhase_acts ep net ins
    refine .inr ⟨ok, row, fun s => ?_⟩
    obtain ⟨t, ht, h⟩ := h s
    exact ⟨t, congrArg some ht, h⟩
  | commit new =>
    cases h
    exact .inr ⟨true, _, fun s => ⟨_, rfl, .commit s ins⟩⟩
  | stop => cases h

theorem prepare_resp {b : BallotNumber} (h : s.cmds i = t.cmds i) :
    (s.prepare ⟨b, i⟩).2 = (t.prepare ⟨b, i⟩).2 := by
  rw [State.prepare, State.prepare, State.getCmd, State.getCmd]
  dsimp only
  rw [h]
  cases t.cmds i with
  | none => rfl
  | some curr =>
    dsimp only
    split_ifs <;> rfl

theorem explicitPrepare_effect (lib : Litu) (net : Net) {b : BallotNumber}
    (h : explicitPrepare ep lib net s i b = some (t, ok)) : ∃ row, ∀ s', s.cmds i = s'.cmds i →
      ∃ t', explicitPrepare ep lib net s' i b = some (t', ok) ∧ Effect s' i t' ok row := by
  obtain ⟨next, hnext, ht⟩ := Option.bind_eq_some_iff.1 h
  obtain ⟨ins, hins, rfl, -⟩ := prepared_ins hnext
  obtain hnone | ⟨ok', row, heff⟩ := goOn_acts ep lib net hins
  · cases (hnone s).symm.trans ht
  · obtain ⟨_, hgo, -⟩ := heff s
    cases hgo.symm.trans ht
    refine ⟨row, ?_⟩
    intro s' hs'
    obtain ⟨t', ht', h'⟩ := heff s'
    refine ⟨t', ?_, h'⟩
    rw [explicitPrepare, ← prepare_resp hs', hnext]
    exact ht'

/-- What a call does to an instance is decided by what is stored of it. -/
def Local (prepare : ExplicitPrepare) : Prop :=
  ∀ s i b t ok, prepare s i b = some (t, ok) → ∃ row, ∀ s', s.cmds i = s'.cmds i →
    ∃ t', prepare s' i b = some (t', ok) ∧ Effect s' i t' ok row

theorem explicitPrepare_local (ep : Epaxos) (lib : Litu) (net : Net) :
    Local (explicitPrepare ep lib net) := by
  intro s i b t ok h
  exact explicitPrepare_effect lib net h

end

/-- The dependencies that can be reached from those of `root`. -/
inductive Below (cmds : Cmds) (root : Instance) : Option InstanceId → Prop
  | dep : p ∈ root.Deps → Below cmds root p
  | next : Below cmds root (some i) → cmds i = some ins → p ∈ ins.Deps → Below cmds root p

/-- Everything that can be reached from `root` is the id of an instance with the property. -/
def AllBelow (cmds : Cmds) (root : Instance) (P : InstanceId → Prop) : Prop :=
  ∀ p, Below cmds root p → ∃ id, p = some id ∧ P id

/-- The instances that the walk of `recoveryDeps` puts into its queue. -/
inductive Walked (cmds : Cmds) (lastSeq : UInt64) (root : Instance) : Instance → Prop
  | root : Walked cmds lastSeq root root
  | dep : Walked cmds lastSeq root ins → lastSeq < ins.Seq →
      some i ∈ ins.Deps → cmds i = some d → d.Seq < ins.Seq → Walked cmds lastSeq root d

def Visited (cmds : Cmds) (lastSeq : UInt64) (root : Instance) (id : InstanceId) : Prop :=
  ∃ ins, Walked cmds lastSeq root ins ∧ lastSeq < ins.Seq ∧ some id ∈ ins.Deps

/-- The table with every instance as its own recovery leaves it. -/
def recovered (prepare : ExplicitPrepare) (s : State) : Cmds := fun id =>
  match recoveryDep prepare s id with
  | some (t, true) => t.cmds id
  | _ => s.cmds id

section
variable {prepare : ExplicitPrepare} {s s' t : State} {id : InstanceId}
  {ok : Bool} {ins root : Instance}
  {lastSeq : UInt64} {q q' : List Instance} {V : InstanceId → Prop}

theorem recoveryDep_committed (h : s.cmds.Committed id) :
    recoveryDep prepare s id = some (s, true) := by
  obtain ⟨ins, hins, hc⟩ := h
  rw [recoveryDep, State.getCmd, hins]
  exact if_pos hc

theorem recoveryDep_local (hp : Local prepare) (h : recoveryDep prepare s id = some (t, ok)) :
    ∃ row, ∀ s', s.cmds id = s'.cmds id →
      ∃ t', recoveryDep prepare s' id = some (t', ok) ∧ Effect s' id t' ok row := by
  rw [recoveryDep, State.getCmd] at h
  simp only [recoveryDep, State.getCmd]
  cases hc : s.cmds id with
  | none =>
    rw [hc] at h
    obtain ⟨row, hrow⟩ := hp _ _ _ _ _ h
    refine ⟨row, ?_⟩
    intro s' hs'
    rw [← hs']
    exact hrow s' (hc.trans hs')
  | some ins =>
    rw [hc] at h
    dsimp only at h
    split_ifs at h with hcom
    · cases h
      refine ⟨some ins, ?_⟩
      intro s' hs'
      rw [← hs']
      exact ⟨s', if_pos hcom, hs'.symm, fun _ _ => rfl, fun _ => ⟨ins, hs'.symm, hcom⟩⟩
    · obtain ⟨row, hrow⟩ := hp _ _ _ _ _ h
      refine ⟨row, ?_⟩
      intro s' hs'
      rw [← hs']
      dsimp only
      rw [if_neg hcom]
      exact hrow s' (hc.trans hs')

/-- The instance is committed, as its recovery from `s` leaves it. -/
def Got (prepare : ExplicitPrepare) (s s' : State) (id : InstanceId) : Prop :=
  s'.cmds id = recovered prepare s id ∧ s'.cmds.Committed id

/-- The table differs from that of `s` only in dependencies that have been recovered. -/
def Rows (prepare : ExplicitPrepare) (s : State) (V : InstanceId → Prop) (s' : State) : Prop :=
  ∀ id, s'.cmds id = s.cmds id ∨ V id ∧ Got prepare s s' id

theorem Got.congr (h : Got prepare s s' id) (heq : t.cmds id = s'.cmds id) :
    Got prepare s t id := by
  obtain ⟨hrow, ins, hins, hc⟩ := h
  exact ⟨heq.trans hrow, ins, heq.trans hins, hc⟩

theorem Rows.dep (hp : Local prepare) (h : Rows prepare s V s') (hid : V id)
    (hdep : recoveryDep prepare s' id = some (t, true)) :
    Rows prepare s V t ∧ Got prepare s t id ∧ ∀ id', Got prepare s s' id' →
      Got prepare s t id' := by
  obtain ⟨row, hrow⟩ := recoveryDep_local hp hdep
  obtain ⟨_, heq, heff⟩ := hrow s' rfl
  cases hdep.symm.trans heq
  have hgot : Got prepare s t id := by
    rcases h id with hs | ⟨-, hgot⟩
    · obtain ⟨u, hu, heffu⟩ := hrow s hs
      refine ⟨?_, heff.commits rfl⟩
      rw [recovered, hu]
      exact heff.row.trans heffu.row.symm
    · rw [recoveryDep_committed hgot.2] at hdep
      cases hdep
      exact hgot
  refine ⟨?_, hgot, ?_⟩
  · intro id'
    by_cases hne : id' = id
    · subst hne
      exact .inr ⟨hid, hgot⟩
    · rcases h id' with hs | ⟨hv, hgot'⟩
      · exact .inl ((heff.frame id' hne).trans hs)
      · exact .inr ⟨hv, hgot'.congr (heff.frame id' hne)⟩
  · intro id' hgot'
    by_cases hne : id' = id
    · subst hne
      exact hgot
    · exact hgot'.congr (heff.frame id' hne)

theorem Rows.scan (hp : Local prepare) (ins : Instance) {deps : List (Option InstanceId)}
    (hdeps : ∀ id, some id ∈ deps → V id) (h : Rows prepare s V s')
    (hscan : recoveryScan prepare ins deps s' q = some (t, some q')) :
    Rows prepare s V t ∧ (∀ id, Got prepare s s' id → Got prepare s t id) ∧
      (∀ p ∈ deps, ∃ id, p = some id ∧ Got prepare s t id) ∧
      ∀ d, d ∈ q' ↔ d ∈ q ∨ d.Seq < ins.Seq ∧ ∃ id, some id ∈ deps ∧
        recovered prepare s id = some d := by
  induction deps generalizing s' q with
  | nil =>
    cases hscan
    exact ⟨h, fun _ hg => hg, nofun, fun d => by simp⟩
  | cons p deps ih =>
    obtain _ | id := p
    · cases hscan
    obtain ⟨⟨s₁, ok⟩, hdep, hrest⟩ := Option.bind_eq_some_iff.1 hscan
    cases ok with
    | false => cases hrest
    | true =>
      obtain ⟨d, hd, hrest⟩ := Option.bind_eq_some_iff.1 hrest
      obtain ⟨h₁, hgot, hkeep⟩ := h.dep hp (hdeps id List.mem_cons_self) hdep
      have hget : recovered prepare s id = some d := hgot.1.symm.trans hd
      obtain ⟨ht, hkeep', hall, hq⟩ :=
        ih (fun i hi => hdeps i (List.mem_cons_of_mem _ hi)) h₁ hrest
      refine ⟨ht, fun i hi => hkeep' i (hkeep i hi), ?_, ?_⟩
      · intro p hp
        rcases List.mem_cons.1 hp with rfl | hp
        · exact ⟨id, rfl, hkeep' id hgot⟩
        · exact hall p hp
      · intro e
        rw [hq]
        split_ifs with hlt
        · rw [List.mem_append, List.mem_singleton]
          constructor
          · rintro ((hm | rfl) | ⟨hlt', i, hi, he⟩)
            · exact .inl hm
            · exact .inr ⟨hlt, id, List.mem_cons_self, hget⟩
            · exact .inr ⟨hlt', i, List.mem_cons_of_mem _ hi, he⟩
          · rintro (hm | ⟨hlt', i, hi, he⟩)
            · exact .inl (.inl hm)
            · rcases List.mem_cons.1 hi with hi | hi
              · cases hi
                cases hget.symm.trans he
                exact .inl (.inr rfl)
              · exact .inr ⟨hlt', i, hi, he⟩
        · constructor
          · rintro (hm | ⟨hlt', i, hi, he⟩)
            · exact .inl hm
            · exact .inr ⟨hlt', i, List.mem_cons_of_mem _ hi, he⟩
          · rintro (hm | ⟨hlt', i, hi, he⟩)
            · exact .inl hm
            · rcases List.mem_cons.1 hi with hi | hi
              · cases hi
                cases hget.symm.trans he
                exact absurd hlt' hlt
              · exact .inr ⟨hlt', i, hi, he⟩

/-- The walk between two instances: those of `done` have been taken from the queue. -/
structure Walking (prepare : ExplicitPrepare) (lastSeq : UInt64) (root : Instance) (s : State)
    (done : Instance → Prop) (s' : State) (q : List Instance) : Prop where
  rows : Rows prepare s (Visited (recovered prepare s) lastSeq root) s'
  queue : ∀ ins ∈ q, Walked (recovered prepare s) lastSeq root ins
  root : done root ∨ root ∈ q
  deps : ∀ ins, done ins → lastSeq < ins.Seq → ∀ p ∈ ins.Deps, ∃ id, p = some id ∧
    Got prepare s s' id ∧ ∀ d, recovered prepare s id = some d → d.Seq < ins.Seq → done d ∨ d ∈ q

theorem Walking.finish (hp : Local prepare) {fuel : Nat} {done : Instance → Prop}
    (h : Walking prepare lastSeq root s done s' q)
    (hrun : recoveryDeps prepare lastSeq fuel s' q = some (t, true)) :
    ∃ done, Walking prepare lastSeq root s done t [] := by
  induction fuel generalizing s' q done with
  | zero => cases hrun
  | succ fuel ih =>
    cases q with
    | nil =>
      cases hrun
      exact ⟨done, h⟩
    | cons ins q =>
      have hmem {d : Instance} (hd : done d ∨ d ∈ ins :: q) : (done d ∨ d = ins) ∨ d ∈ q := by
        rcases hd with hd | hd
        · exact .inl (.inl hd)
        · rcases List.mem_cons.1 hd with rfl | hd
          · exact .inl (.inr rfl)
          · exact .inr hd
      rw [recoveryDeps] at hrun
      split_ifs at hrun with hle
      · apply @ih _ _ (fun d => done d ∨ d = ins) _ hrun
        refine ⟨h.rows, fun d hd => h.queue d (List.mem_cons_of_mem _ hd), hmem h.root, ?_⟩
        rintro d (hd | rfl) hlt p hp
        · obtain ⟨id, rfl, hgot, hnext⟩ := h.deps d hd hlt p hp
          exact ⟨id, rfl, hgot, fun e he hlt' => hmem (hnext e he hlt')⟩
        · exact absurd hle (UInt64.not_le.2 hlt)
      · obtain ⟨⟨s₁, r⟩, hscan, hrest⟩ := Option.bind_eq_some_iff.1 hrun
        cases r with
        | none => cases hrest
        | some q₁ =>
          have hw := h.queue ins List.mem_cons_self
          have hlt := UInt64.not_le.1 hle
          obtain ⟨hrows, hkeep, hall, hq⟩ :=
            h.rows.scan hp ins (fun id hid => ⟨ins, hw, hlt, hid⟩) hscan
          apply @ih _ _ (fun d => done d ∨ d = ins) _ hrest
          refine ⟨hrows, ?_, ?_, ?_⟩
          · intro d hd
            rcases (hq d).1 hd with hd | ⟨hlt', id, hid, he⟩
            · exact h.queue d (List.mem_cons_of_mem _ hd)
            · exact .dep hw hlt hid he hlt'
          · exact (hmem h.root).imp_right fun hm => (hq root).2 (.inl hm)
          · rintro d (hd | rfl) hlt' p hp
            · obtain ⟨id, rfl, hgot, hnext⟩ := h.deps d hd hlt' p hp
              refine ⟨id, rfl, hkeep id hgot, fun e he hlt'' => ?_⟩
              exact (hmem (hnext e he hlt'')).imp_right fun hm => (hq e).2 (.inl hm)
            · obtain ⟨id, rfl, hgot⟩ := hall p hp
              refine ⟨id, rfl, hgot, fun e he hlt'' => ?_⟩
              exact .inr ((hq e).2 (.inr ⟨hlt'', id, hp, he⟩))

theorem Walking.visited {done : Instance → Prop} (h : Walking prepare lastSeq root s done t [])
    (hv : Visited (recovered prepare s) lastSeq root id) : Got prepare s t id := by
  have hdone {ins} (hw : Walked (recovered prepare s) lastSeq root ins) : done ins := by
    induction hw with
    | root => exact h.root.resolve_right List.not_mem_nil
    | dep _ hlt hid hd hlt' ih =>
      obtain ⟨_, ⟨⟩, -, hnext⟩ := h.deps _ ih hlt _ hid
      exact (hnext _ hd hlt').resolve_right List.not_mem_nil
  obtain ⟨ins, hw, hlt, hid⟩ := hv
  obtain ⟨_, ⟨⟩, hgot, -⟩ := h.deps ins (hdone hw) hlt _ hid
  exact hgot

/-- The walk visits what it recovers and leaves the rest of the table as it is. -/
theorem recoveryDeps_rows (hp : Local prepare) {fuel : Nat}
    (h : recoveryDeps prepare lastSeq fuel s [root] = some (t, true)) (id : InstanceId) :
    (Visited (recovered prepare s) lastSeq root id → Got prepare s t id) ∧
      (¬ Visited (recovered prepare s) lastSeq root id → t.cmds id = s.cmds id) := by
  have hstart : Walking prepare lastSeq root s (fun _ => False) s [root] := by
    refine ⟨fun _ => .inl rfl, ?_, .inr (List.mem_singleton_self _), nofun⟩
    intro ins hins
    rw [List.mem_singleton.1 hins]
    exact .root
  obtain ⟨done, hdone⟩ := hstart.finish hp h
  refine ⟨hdone.visited, fun hv => ?_⟩
  exact (hdone.rows id).resolve_right fun hr => hv hr.1

theorem recovered_committed (h : s.cmds.Committed id) : recovered prepare s id = s.cmds id := by
  rw [recovered, recoveryDep_committed h]

/-- Once the walk is over, everything below the root is committed if and only if what it did not
visit was committed before. -/
theorem below_committed_iff (hp : Local prepare) {fuel : Nat}
    (h : recoveryDeps prepare lastSeq fuel s [root] = some (t, true)) :
    AllBelow t.cmds root t.cmds.Committed ↔ AllBelow (recovered prepare s) root fun id =>
      Visited (recovered prepare s) lastSeq root id ∨ s.cmds.Committed id := by
  have hrows := recoveryDeps_rows hp h
  have heq {id} (hid : Visited (recovered prepare s) lastSeq root id ∨ s.cmds.Committed id) :
      t.cmds id = recovered prepare s id ∧ t.cmds.Committed id := by
    by_cases hv : Visited (recovered prepare s) lastSeq root id
    · exact (hrows id).1 hv
    · have hcom := hid.resolve_left hv
      have hsame := (hrows id).2 hv
      obtain ⟨ins, hins, hc⟩ := hcom
      exact ⟨hsame.trans (recovered_committed ⟨ins, hins, hc⟩).symm, ins, hsame.trans hins, hc⟩
  have hvis {id} (hcom : t.cmds.Committed id) :
      Visited (recovered prepare s) lastSeq root id ∨ s.cmds.Committed id := by
    by_cases hv : Visited (recovered prepare s) lastSeq root id
    · exact .inl hv
    · obtain ⟨ins, hins, hc⟩ := hcom
      exact .inr ⟨ins, ((hrows id).2 hv).symm.trans hins, hc⟩
  constructor
  · intro hall p hb
    have hbt : Below t.cmds root p := by
      induction hb with
      | dep hp => exact .dep hp
      | next _ hins hp ih =>
        obtain ⟨_, ⟨⟩, hcom⟩ := hall _ ih
        exact .next ih ((heq (hvis hcom)).1.trans hins) hp
    obtain ⟨id, rfl, hcom⟩ := hall p hbt
    exact ⟨id, rfl, hvis hcom⟩
  · intro hall p hb
    have hbr : Below (recovered prepare s) root p := by
      induction hb with
      | dep hp => exact .dep hp
      | next _ hins hp ih =>
        obtain ⟨_, ⟨⟩, hv⟩ := hall _ ih
        exact .next ih ((heq hv).1.symm.trans hins) hp
    obtain ⟨id, rfl, hv⟩ := hall p hbr
    exact ⟨id, rfl, (heq hv).2⟩

end

/-- If `recoveryDeps` returns `true`, everything below the root is committed exactly when
everything below it was committed before or is a dependency that the walk visits. -/
theorem recoveryDeps_commits_iff (ep : Epaxos) (lib : Litu) (net : Net) (lastSeq : UInt64)
    (fuel : Nat) (s t : State) (root : Instance)
    (h : recoveryDeps (explicitPrepare ep lib net) lastSeq fuel s [root] = some (t, true)) :
    AllBelow t.cmds root t.cmds.Committed ↔
      AllBelow (recovered (explicitPrepare ep lib net) s) root fun id =>
        Visited (recovered (explicitPrepare ep lib net) s) lastSeq root id ∨
          s.cmds.Committed id :=
  below_committed_iff (explicitPrepare_local ep lib net) h

def Net.silent : Net := ⟨fun _ => [], fun _ => [], fun _ _ => []⟩

theorem recoveryDeps_commits_iff_chain :
    let s : State := { State.empty with cmds := chain.cmds }
    let prepare := explicitPrepare ⟨0, 0, 3⟩ .plain .silent
    AllBelow s.cmds (write 2 2 [⟨0, 1⟩]) s.cmds.Committed ↔
      AllBelow (recovered prepare s) (write 2 2 [⟨0, 1⟩]) fun id =>
        Visited (recovered prepare s) 0 (write 2 2 [⟨0, 1⟩]) id ∨ s.cmds.Committed id :=
  recoveryDeps_commits_iff _ _ _ 0 3 _ _ _ rfl

/-- A root that is not newer than `lastSeq` is not walked, so a missing dependency is
overlooked. -/
theorem recoveryDeps_overlooks : ¬ ∀ (ep : Epaxos) (lib : Litu) (net : Net) (lastSeq : UInt64)
    (fuel : Nat) (s t : State) (root : Instance),
    recoveryDeps (explicitPrepare ep lib net) lastSeq fuel s [root] = some (t, true) →
      AllBelow t.cmds root t.cmds.Committed := by
  intro h
  obtain ⟨_, ⟨⟩, ins, hins, -⟩ := h ⟨0, 0, 3⟩ .plain .silent 1 2 .empty .empty
    (write 2 1 [⟨0, 1⟩]) rfl (some ⟨0, 1⟩) (.dep (List.mem_singleton_self _))
  cases hins

end Misc.Epaxos
