import Misc.Epaxos.Handlers

namespace Misc.Epaxos
set_option autoImplicit true
set_option linter.dupNamespace false

/-- A replica's numbers; of its `peers`, itself included, the code uses only how many there
are. -/
structure Epaxos where
  rid : UInt64
  epoch : UInt64
  peers : Nat
  deriving DecidableEq, Repr

def Epaxos.majorityQuorum (ep : Epaxos) : Nat := ep.peers / 2 + 1

def Epaxos.fastPathQuorum (ep : Epaxos) : Nat :=
  let f := ep.peers - ep.majorityQuorum
  f + (f + 1) / 2

/-- What a leader uses of the package `slice`. The function that `equal` is given may panic. -/
structure Litu extends Slices where
  equal : (Option InstanceId → Option InstanceId → Option Bool) → List (Option InstanceId) →
    List (Option InstanceId) → Option Bool
  equal_iff : ∀ eq a b, equal eq a b = some true ↔
    List.Forall₂ (fun x y => eq x y = some true) a b
  firstPtr : (BallotNumber × PreparedCmd → Bool) → List (BallotNumber × PreparedCmd) →
    Option (BallotNumber × PreparedCmd)
  firstPtr_eq : ∀ p r, firstPtr p r = r.find? p
  countBy : (BallotNumber × PreparedCmd → Bool) → List (BallotNumber × PreparedCmd) → Nat
  countBy_eq : ∀ p r, countBy p r = r.countP p

/-- The union of two sorted slices, an element at a time. -/
def insertSorted (cmp : Option InstanceId → Option InstanceId → Option Int64)
    (x : Option InstanceId) : List (Option InstanceId) → Option (List (Option InstanceId))
  | [] => some [x]
  | y :: ys =>
    (cmp x y).bind fun c =>
      if c < 0 then some (x :: y :: ys)
      else if c = 0 then some (y :: ys)
      else (insertSorted cmp x ys).map fun l => y :: l

/-- Slices are compared from the front when they are equally long. -/
def equalSlices (eq : Option InstanceId → Option InstanceId → Option Bool) :
    List (Option InstanceId) → List (Option InstanceId) → Option Bool
  | [], [] => some true
  | x :: a, y :: b =>
    if a.length = b.length then
      (eq x y).bind fun same => if same then equalSlices eq a b else some false
    else some false
  | _, _ => some false

theorem equalSlices_iff (eq : Option InstanceId → Option InstanceId → Option Bool)
    (a b : List (Option InstanceId)) :
    equalSlices eq a b = some true ↔ List.Forall₂ (fun x y => eq x y = some true) a b := by
  induction a generalizing b with
  | nil => cases b <;> simp [equalSlices]
  | cons x a ih =>
    cases b with
    | nil => simp [equalSlices]
    | cons y b =>
      rw [List.forall₂_cons, ← ih, equalSlices]
      split_ifs with hlen
      · cases eq x y with
        | none => simp
        | some same => cases same <;> simp
      · have hne : ¬ equalSlices eq a b = some true := fun h => hlen ((ih b).1 h).length_eq
        simp [hne]

/-- The packages with insertion sort and lists. -/
def Litu.plain : Litu where
  sort := .insertion _
  unionSortedBy cmp a b := b.foldrM (insertSorted cmp) a
  union_nil _ _ := rfl
  equal := equalSlices
  equal_iff := equalSlices_iff
  firstPtr p r := r.find? p
  firstPtr_eq _ _ := rfl
  countBy p r := r.countP p
  countBy_eq _ _ := rfl

/-- What a call does next: store an instance and send it to the other replicas, or return
`false`. -/
inductive Next
  | phase1 (ins : Instance)
  | accept (ins : Instance)
  | commit (ins : Instance)
  | stop
  deriving DecidableEq, Repr

def Next.ins : Next → Option Instance
  | .phase1 ins | .accept ins | .commit ins => some ins
  | .stop => none

/-- The request that a leader makes of its instance. -/
def Instance.req (ins : Instance) : AcceptReq := ⟨ins.Ballot, ins.Y, ins.Seq, ins.Deps, ins.I⟩

def Instance.denied (ins : Instance) (ballot : BallotNumber) : Instance :=
  if lessBallotNumber ins.MaxSeen ballot then { ins with MaxSeen := ballot } else ins

/-- The variables of the loop of `phase1`. -/
structure PreAccepting where
  ins : Instance
  mergedDeps : List (Option InstanceId)
  maxSeq : UInt64
  isDiff : Bool
  preAccepted : Nat
  deriving DecidableEq, Repr

/-- The function that `phase1` gives to `slice.Equal`. -/
def eqPtr (a b : Option InstanceId) : Option Bool := (cmpPtr a b).map fun c => c == 0

/-- `none` is the panic at a `nil`, here and in what follows. -/
def PreAccepting.count (lib : Litu) (t : PreAccepting) (resp : PreAcceptResp) :
    Option PreAccepting :=
  (lib.sortInstanceIds resp.Deps).bind fun deps =>
    (lib.equal eqPtr t.ins.Deps deps).bind fun same =>
      if same then some { t with preAccepted := t.preAccepted + 1 }
      else (lib.unionSortedBy cmpPtr t.mergedDeps deps).map fun mergedDeps =>
        { t with
          isDiff := true
          mergedDeps
          maxSeq := if t.maxSeq < resp.Seq then resp.Seq else t.maxSeq
          preAccepted := t.preAccepted + 1 }

/-- The loop of `phase1` over the results of `PreAccept`, in which `none` is an error. -/
def preAccepting (ep : Epaxos) (lib : Litu) :
    List (Option PreAcceptResp) → PreAccepting → Option PreAccepting
  | [], t => some t
  | none :: results, t => preAccepting ep lib results t
  | some resp :: results, t =>
    if resp.Ok then
      (t.count lib resp).bind fun t =>
        if ep.fastPathQuorum ≤ t.preAccepted ∨ t.isDiff ∧ ep.majorityQuorum ≤ t.preAccepted then
          some t
        else preAccepting ep lib results t
    else preAccepting ep lib results { t with ins := t.ins.denied resp.Ballot }

/-- The variables of `phase1` before the first result. -/
def PreAccepting.start (lib : Litu) (ins : Instance) : Option PreAccepting :=
  (lib.sortInstanceIds ins.Deps).map fun deps =>
    ⟨{ ins with Deps := deps }, deps, ins.Seq, false, 1⟩

/-- The instance with which `phase1` goes on after its loop. -/
def PreAccepting.outcome (t : PreAccepting) : Instance :=
  if t.isDiff then { t.ins with Deps := t.mergedDeps, Seq := t.maxSeq } else t.ins

/-- The rest of `phase1` after its loop. -/
def PreAccepting.next (ep : Epaxos) (t : PreAccepting) : Next :=
  if ep.fastPathQuorum ≤ t.preAccepted ∧ t.isDiff = false then .commit t.outcome
  else if t.preAccepted < ep.majorityQuorum then .stop
  else .accept t.outcome

def preAccepted (ep : Epaxos) (lib : Litu) (ins : Instance)
    (results : List (Option PreAcceptResp)) : Option Next :=
  ((PreAccepting.start lib ins).bind (preAccepting ep lib results)).map (PreAccepting.next ep)

/-- The loop of `paxosAcceptPhase`, with the votes. -/
def accepting (ep : Epaxos) : List (Option AcceptResp) → Instance → Nat → Instance × Nat
  | [], ins, accepted => (ins, accepted)
  | none :: results, ins, accepted => accepting ep results ins accepted
  | some resp :: results, ins, accepted =>
    if resp.Ok then
      if ep.majorityQuorum ≤ accepted + 1 then (ins, accepted + 1)
      else accepting ep results ins (accepted + 1)
    else accepting ep results (ins.denied resp.Ballot) accepted

def accepted (ep : Epaxos) (ins : Instance) (results : List (Option AcceptResp)) : Next :=
  let (ins, accepted) := accepting ep results ins 1
  if accepted < ep.majorityQuorum then .stop else .commit ins

/-- The reply joins those with the highest ballot, as `explicitPrepare` takes it. -/
def highest (highestBallot : BallotNumber) (r : List PrepareResp) (resp : PrepareResp) :
    BallotNumber × List PrepareResp :=
  if lessBallotNumber highestBallot resp.Ballot then (highestBallot, r)
  else if equalBallotNumber highestBallot resp.Ballot then (highestBallot, r ++ [resp])
  else (resp.Ballot, [resp])

/-- The loop of `explicitPrepare` with its variables `highestBallot` and `r`. Each result comes
with whether the channel is empty after it. -/
def collecting (ep : Epaxos) : List (Option PrepareResp × Bool) → Nat → BallotNumber →
    List PrepareResp → BallotNumber × List PrepareResp
  | [], _, highestBallot, r => (highestBallot, r)
  | (none, _) :: results, prepared, highestBallot, r =>
    collecting ep results prepared highestBallot r
  | (some resp, empty) :: results, prepared, highestBallot, r =>
    if resp.Ok then
      let (highestBallot, r) := highest highestBallot r resp
      if ep.majorityQuorum ≤ prepared + 1 ∧ empty then (highestBallot, r)
      else collecting ep results (prepared + 1) highestBallot r
    else collecting ep results prepared highestBallot r

def Epaxos.nextBallot (ep : Epaxos) (maxSeen : BallotNumber) : BallotNumber :=
  ⟨ep.epoch, maxSeen.B + 1, ep.rid⟩

/-- The choice of `explicitPrepare` between the replies with the highest ballot. -/
def recover (ep : Epaxos) (lib : Litu) (i : InstanceId) (nextBallot : BallotNumber)
    (r : List (BallotNumber × PreparedCmd)) : Option Next :=
  let ins (cmd : PreparedCmd) : Instance :=
    ⟨i, nextBallot, nextBallot, cmd.State, cmd.Y, cmd.Seq, cmd.Deps⟩
  let initial (pr : BallotNumber × PreparedCmd) : Bool := pr.2.State = .preAccepted ∧ pr.1.B = 0
  match lib.firstPtr (fun pr => pr.2.State = .committed) r with
  | some pr => some (.commit (ins pr.2))
  | none => match lib.firstPtr (fun pr => pr.2.State = .accepted) r with
    | some pr => some (.accept (ins pr.2))
    | none =>
      if ep.majorityQuorum ≤ lib.countBy initial r then
        (lib.firstPtr initial r).map fun pr => .accept (ins pr.2)
      else match lib.firstPtr (fun pr => pr.2.State = .preAccepted) r with
        | some pr => some (.phase1 (ins pr.2))
        | none => some (.phase1 ⟨i, nextBallot, nextBallot, .preAccepted, .nop, 0, []⟩)

/-- The rest of `explicitPrepare` after the results; `none` where a reply has no `Cmd`. -/
def prepared (ep : Epaxos) (lib : Litu) (i : InstanceId) (nextBallot : BallotNumber)
    (results : List (Option PrepareResp × Bool)) : Option Next :=
  let r := (collecting ep results 0 .zero []).2
  (r.mapM fun pr : PrepareResp => pr.Cmd.map fun cmd => (pr.Ballot, cmd)).bind
    (recover ep lib i nextBallot)

def Cmds.Committed (cmds : Cmds) (id : InstanceId) : Prop :=
  ∃ ins, cmds id = some ins ∧ ins.State = .committed

section
variable {ep : Epaxos} {lib : Litu} {ins : Instance} {i : InstanceId}

def Instance.Alike (a b : Instance) : Prop := ∃ m, b = { a with MaxSeen := m }

theorem Instance.Alike.refl (ins : Instance) : ins.Alike ins := ⟨ins.MaxSeen, rfl⟩

theorem Instance.Alike.trans {a b c : Instance} (hab : a.Alike b) (hbc : b.Alike c) :
    a.Alike c := by
  obtain ⟨m, rfl⟩ := hab
  obtain ⟨m', rfl⟩ := hbc
  exact ⟨m', rfl⟩

theorem Instance.alike_denied (ins : Instance) (ballot : BallotNumber) :
    ins.Alike (ins.denied ballot) := by
  rw [Instance.denied]
  split_ifs
  · exact ⟨ballot, rfl⟩
  · exact .refl ins

theorem count_ins {t t' : PreAccepting} {resp : PreAcceptResp} (h : t.count lib resp = some t') :
    t'.ins = t.ins := by
  obtain ⟨deps, -, h⟩ := Option.bind_eq_some_iff.1 h
  obtain ⟨same, -, h⟩ := Option.bind_eq_some_iff.1 h
  split at h
  · cases h
    rfl
  · obtain ⟨mergedDeps, -, rfl⟩ := Option.map_eq_some_iff.1 h
    rfl

theorem preAccepting_alike {t t' : PreAccepting} {results : List (Option PreAcceptResp)}
    (h : preAccepting ep lib results t = some t') : t.ins.Alike t'.ins := by
  induction results generalizing t with
  | nil =>
    cases h
    exact .refl _
  | cons result results ih =>
    cases result with
    | none => exact ih h
    | some resp =>
      rw [preAccepting] at h
      split_ifs at h
      · obtain ⟨t₁, hcount, h⟩ := Option.bind_eq_some_iff.1 h
        rw [← count_ins hcount]
        split_ifs at h
        · cases h
          exact .refl _
        · exact ih h
      · exact (t.ins.alike_denied resp.Ballot).trans (ih h)

theorem preAccepted_eq_some {results : List (Option PreAcceptResp)} {next : Next} :
    preAccepted ep lib ins results = some next ↔ ∃ t₀ t, PreAccepting.start lib ins = some t₀ ∧
      preAccepting ep lib results t₀ = some t ∧ t.next ep = next := by
  rw [preAccepted, Option.map_eq_some_iff]
  constructor
  · rintro ⟨t, h, rfl⟩
    obtain ⟨t₀, h₀, h⟩ := Option.bind_eq_some_iff.1 h
    exact ⟨t₀, t, h₀, h, rfl⟩
  · rintro ⟨t₀, t, h₀, h, rfl⟩
    exact ⟨t, Option.bind_eq_some_iff.2 ⟨t₀, h₀, h⟩, rfl⟩

theorem accepting_alike (ep : Epaxos) (results : List (Option AcceptResp))
    (ins : Instance) (n : Nat) : ins.Alike (accepting ep results ins n).1 := by
  induction results generalizing ins n with
  | nil => exact .refl _
  | cons result results ih =>
    cases result with
    | none => exact ih ins n
    | some resp =>
      rw [accepting]
      split_ifs
      · exact .refl _
      · exact ih ins (n + 1)
      · exact (ins.alike_denied resp.Ballot).trans (ih _ n)

theorem next_ne_phase1 (t : PreAccepting) (new : Instance) : t.next ep ≠ .phase1 new := by
  rw [PreAccepting.next]
  split_ifs <;> exact nofun

theorem preAccepted_ne_phase1 (results : List (Option PreAcceptResp)) (new : Instance) :
    preAccepted ep lib ins results ≠ some (.phase1 new) := by
  intro h
  obtain ⟨t₀, t, -, -, h⟩ := preAccepted_eq_some.1 h
  exact next_ne_phase1 t new h

theorem next_ins {t : PreAccepting} {new : Instance} (h : (t.next ep).ins = some new) :
    new = t.outcome := by
  rw [PreAccepting.next] at h
  split_ifs at h
  · exact (Option.some.inj h).symm
  · cases h
  · exact (Option.some.inj h).symm

theorem preAccepted_ins {results : List (Option PreAcceptResp)} {next : Next} {new : Instance}
    (h : preAccepted ep lib ins results = some next) (hnew : next.ins = some new) :
    new.I = ins.I ∧ new.Ballot = ins.Ballot ∧ new.Y = ins.Y := by
  obtain ⟨t₀, t, hstart, hloop, rfl⟩ := preAccepted_eq_some.1 h
  obtain ⟨deps, -, rfl⟩ := Option.map_eq_some_iff.1 hstart
  obtain ⟨m, hm⟩ := preAccepting_alike hloop
  rw [next_ins hnew, PreAccepting.outcome, hm]
  split_ifs <;> exact ⟨rfl, rfl, rfl⟩

theorem accepted_cases (ep : Epaxos) (ins : Instance) (results : List (Option AcceptResp)) :
    accepted ep ins results = .stop ∨
      ∃ new, ins.Alike new ∧ accepted ep ins results = .commit new := by
  rw [accepted]
  dsimp only
  split_ifs
  · exact .inl rfl
  · exact .inr ⟨_, accepting_alike ep results ins 1, rfl⟩

def PreparedCmd.instance (cmd : PreparedCmd) (i : InstanceId)
    (nextBallot : BallotNumber) : Instance :=
  ⟨i, nextBallot, nextBallot, cmd.State, cmd.Y, cmd.Seq, cmd.Deps⟩

/-- What `explicitPrepare` goes on with: the command of a reply, in the phase that its state
asks for, or a no-op. -/
theorem recover_cases {nextBallot : BallotNumber}
    {r : List (BallotNumber × PreparedCmd)} {next : Next}
    (h : recover ep lib i nextBallot r = some next) :
    next = .phase1 ⟨i, nextBallot, nextBallot, .preAccepted, .nop, 0, []⟩ ∨ ∃ pr ∈ r,
      next = .commit (pr.2.instance i nextBallot) ∧ pr.2.State = .committed ∨
      next = .accept (pr.2.instance i nextBallot) ∨
      next = .phase1 (pr.2.instance i nextBallot) ∧ pr.2.State = .preAccepted := by
  have hfirst {p pr} (hp : lib.firstPtr p r = some pr) : pr ∈ r ∧ p pr = true := by
    rw [lib.firstPtr_eq] at hp
    exact ⟨List.mem_of_find?_eq_some hp, List.find?_some hp⟩
  rw [recover] at h
  split at h
  · next pr hpr =>
    cases h
    obtain ⟨hm, hs⟩ := hfirst hpr
    exact .inr ⟨pr, hm, .inl ⟨rfl, of_decide_eq_true hs⟩⟩
  · split at h
    · next pr hpr =>
      cases h
      exact .inr ⟨pr, (hfirst hpr).1, .inr (.inl rfl)⟩
    · split at h
      · obtain ⟨pr, hpr, rfl⟩ := Option.map_eq_some_iff.1 h
        exact .inr ⟨pr, (hfirst hpr).1, .inr (.inl rfl)⟩
      · split at h
        · next pr hpr =>
          cases h
          obtain ⟨hm, hs⟩ := hfirst hpr
          exact .inr ⟨pr, hm, .inr (.inr ⟨rfl, of_decide_eq_true hs⟩)⟩
        · cases h
          exact .inl rfl

theorem mem_mapM {α β : Type} {f : α → Option β} {l : List α} {l' : List β} {b : β}
    (h : l.mapM f = some l') (hb : b ∈ l') : ∃ a ∈ l, f a = some b := by
  induction l generalizing l' with
  | nil =>
    cases h
    cases hb
  | cons a l ih =>
    rw [List.mapM_cons] at h
    obtain ⟨b', hb', h⟩ := Option.bind_eq_some_iff.1 h
    obtain ⟨bs, hbs, h⟩ := Option.bind_eq_some_iff.1 h
    cases h
    rcases List.mem_cons.1 hb with rfl | hb
    · exact ⟨a, List.mem_cons_self, hb'⟩
    · obtain ⟨x, hx, hfx⟩ := ih hbs hb
      exact ⟨x, List.mem_cons_of_mem _ hx, hfx⟩

theorem mem_collecting {results : List (Option PrepareResp × Bool)} {m : Nat} {b : BallotNumber}
    {r : List PrepareResp} {resp : PrepareResp} (h : resp ∈ (collecting ep results m b r).2) :
    resp ∈ r ∨ some resp ∈ results.map Prod.fst := by
  have hhighest {b : BallotNumber} {r : List PrepareResp} {new : PrepareResp}
      (h : resp ∈ (highest b r new).2) : resp ∈ r ∨ resp = new := by
    rw [highest] at h
    split_ifs at h
    · exact .inl h
    · exact (List.mem_append.1 h).imp_right List.mem_singleton.1
    · exact .inr (List.mem_singleton.1 h)
  induction results generalizing m b r with
  | nil => exact .inl h
  | cons result results ih =>
    obtain ⟨result, empty⟩ := result
    rw [List.map_cons, List.mem_cons]
    cases result with
    | none => exact (ih h).imp_right .inr
    | some new =>
      rw [collecting] at h
      dsimp only at h
      have hnew (h : resp ∈ (highest b r new).2) :
          resp ∈ r ∨ some resp = some new ∨ some resp ∈ results.map Prod.fst :=
        (hhighest h).imp_right fun he => .inl (congrArg some he)
      split_ifs at h
      · exact hnew h
      · rcases ih h with h | h
        · exact hnew h
        · exact .inr (.inr h)
      · exact (ih h).imp_right .inr

theorem prepared_cases {nextBallot : BallotNumber} {results : List (Option PrepareResp × Bool)}
    {next : Next} (h : prepared ep lib i nextBallot results = some next) :
    next = .phase1 ⟨i, nextBallot, nextBallot, .preAccepted, .nop, 0, []⟩ ∨
      ∃ resp cmd, some resp ∈ results.map Prod.fst ∧ resp.Cmd = some cmd ∧
        (next = .commit (cmd.instance i nextBallot) ∧ cmd.State = .committed ∨
          next = .accept (cmd.instance i nextBallot) ∨
          next = .phase1 (cmd.instance i nextBallot) ∧ cmd.State = .preAccepted) := by
  obtain ⟨r, hr, hrec⟩ := Option.bind_eq_some_iff.1 h
  obtain rfl | ⟨pr, hpr, hnext⟩ := recover_cases hrec
  · exact .inl rfl
  · right
    obtain ⟨resp, hresp, hmap⟩ := mem_mapM hr hpr
    obtain ⟨cmd, hcmd, rfl⟩ := Option.map_eq_some_iff.1 hmap
    exact ⟨resp, cmd, (mem_collecting hresp).resolve_left List.not_mem_nil, hcmd, hnext⟩

theorem prepared_ins {nextBallot : BallotNumber} {results : List (Option PrepareResp × Bool)}
    {next : Next} (h : prepared ep lib i nextBallot results = some next) :
    ∃ new, next.ins = some new ∧ new.I = i ∧ new.Ballot = nextBallot := by
  obtain rfl | ⟨resp, cmd, -, -, ⟨rfl, -⟩ | rfl | ⟨rfl, -⟩⟩ := prepared_cases h
  all_goals exact ⟨_, rfl, rfl, rfl⟩

end

end Misc.Epaxos
