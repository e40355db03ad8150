import Misc.Epaxos.State

namespace Misc.Epaxos
set_option autoImplicit true

/-- The request of `PreAccept`, `Accept` and `Commit`, which have the same fields. -/
structure AcceptReq where
  Ballot : BallotNumber
  Y : Command
  Seq : UInt64
  Deps : List (Option InstanceId)
  I : InstanceId
  deriving DecidableEq, Repr

abbrev PreAcceptReq := AcceptReq
abbrev CommitReq := AcceptReq

structure PreAcceptResp where
  Ok : Bool
  Ballot : BallotNumber
  Y : Option Command
  Seq : UInt64
  Deps : List (Option InstanceId)
  I : Option InstanceId
  deriving DecidableEq, Repr

structure AcceptResp where
  Ok : Bool
  Ballot : BallotNumber
  Y : Option Command
  I : Option InstanceId
  deriving DecidableEq, Repr

structure PrepareReq where
  Ballot : BallotNumber
  I : InstanceId
  deriving DecidableEq, Repr

structure PreparedCmd where
  Y : Command
  Seq : UInt64
  Deps : List (Option InstanceId)
  State : InstanceState
  deriving DecidableEq, Repr

structure PrepareResp where
  Ok : Bool
  Ballot : BallotNumber
  I : Option InstanceId
  Cmd : Option PreparedCmd
  deriving DecidableEq, Repr

/-- What the code uses of the packages `sort` and `slice`. The function that compares may panic,
and with an empty second slice there is nothing to compare. -/
structure Slices where
  sort : SortSlice InstanceId
  unionSortedBy : (Option InstanceId → Option InstanceId → Option Int64) →
    List (Option InstanceId) → List (Option InstanceId) → Option (List (Option InstanceId))
  union_nil : ∀ cmp a, (unionSortedBy cmp a []).isSome

def Slices.sortIds (lib : Slices) (ids : List InstanceId) : List InstanceId :=
  lib.sort.sort (fun a b => cmpInstanceId a b < 0) ids

/-- `sort.Slice` compares each element as soon as there are two, so that a `nil` among them
panics. -/
def Slices.sortInstanceIds (lib : Slices) (c : List (Option InstanceId)) :
    Option (List (Option InstanceId)) :=
  match derefs c with
  | some ids => some ((lib.sortIds ids).map some)
  | none => if c.length ≤ 1 then some c else none

def AcceptReq.toInstance (req : AcceptReq) (state : InstanceState) : Instance :=
  ⟨req.I, req.Ballot, req.Ballot, state, req.Y, req.Seq, req.Deps⟩

/-- The dependencies that `PreAccept` merges; `none` is the panic at a `nil`. -/
def State.mergedDeps (lib : Slices) (s : State) (req : PreAcceptReq) :
    Option (List (Option InstanceId)) :=
  (lib.sortInstanceIds (s.getInterf req.Y.Key).2).bind fun cmdDeps =>
    (lib.sortInstanceIds req.Deps).bind fun deps => lib.unionSortedBy cmpPtr cmdDeps deps

def State.preAccepted (lib : Slices) (s : State) (req : PreAcceptReq) : Option Instance :=
  let maxSeq := (s.getInterf req.Y.Key).1
  (s.mergedDeps lib req).map fun mergedDeps =>
    { req.toInstance .preAccepted with
      Seq := if maxSeq < req.Seq then req.Seq else maxSeq + 1
      Deps := mergedDeps }

/-- A call that panics sends no response. It has not stored anything then. -/
def State.preAccept (lib : Slices) (s : State) (req : PreAcceptReq) :
    State × Option PreAcceptResp :=
  match s.getCmd req.I with
  | some curr =>
    if lessBallotNumber req.Ballot curr.MaxSeen ∨ curr.State = .committed then
      (s, some ⟨false, curr.MaxSeen, none, 0, [], none⟩)
    else store
  | none => store
where
  store :=
    match s.preAccepted lib req with
    | some ins =>
      (s.storeCmd ins, some ⟨true, ins.Ballot, some ins.Y, ins.Seq, ins.Deps, some ins.I⟩)
    | none => (s, none)

def State.accept (s : State) (req : AcceptReq) : State × AcceptResp :=
  match s.getCmd req.I with
  | some curr =>
    if lessBallotNumber req.Ballot curr.Ballot ∨ curr.State = .committed then
      (s, ⟨false, curr.Ballot, none, none⟩)
    else store
  | none => store
where
  store :=
    let ins := req.toInstance .accepted
    (s.storeCmd ins, ⟨false, ins.Ballot, some ins.Y, some ins.I⟩)

def State.commit (s : State) (req : CommitReq) : State := s.storeCmd (req.toInstance .committed)

/-- `Prepare` leaves the state as it is. -/
def State.prepare (s : State) (req : PrepareReq) : State × PrepareResp :=
  match s.getCmd req.I with
  | some curr =>
    if lessBallotNumber req.Ballot curr.Ballot then (s, ⟨false, curr.Ballot, none, none⟩)
    else (s, prepared curr)
  | none => (s, prepared ⟨req.I, .zero, req.Ballot, .init, .nop, 0, []⟩)
where
  prepared (curr : Instance) : PrepareResp :=
    ⟨true, curr.Ballot, some curr.I, some ⟨curr.Y, curr.Seq, curr.Deps, curr.State⟩⟩

theorem derefs_map (ids : List InstanceId) : derefs (ids.map some) = some ids := by
  induction ids with
  | nil => rfl
  | cons i ids ih =>
    rw [derefs] at ih
    rw [derefs, List.map_cons, List.mapM_cons, ih]
    rfl

theorem derefs_eq_some {c : List (Option InstanceId)} {ids : List InstanceId} :
    derefs c = some ids ↔ c = ids.map some := by
  constructor
  · intro h
    induction c generalizing ids with
    | nil =>
      cases h
      rfl
    | cons p c ih =>
      rw [derefs, List.mapM_cons] at h
      obtain ⟨i, hi, h⟩ := Option.bind_eq_some_iff.1 h
      obtain ⟨is, his, h⟩ := Option.bind_eq_some_iff.1 h
      obtain rfl : i :: is = ids := Option.some.inj h
      rw [ih his, show p = some i from hi]
      rfl
  · rintro rfl
    exact derefs_map ids

theorem sortInstanceIds_map (lib : Slices) (ids : List InstanceId) :
    lib.sortInstanceIds (ids.map some) = some ((lib.sortIds ids).map some) := by
  rw [Slices.sortInstanceIds, derefs_map]

theorem sortInstanceIds_perm {lib : Slices} {c c' : List (Option InstanceId)}
    (h : lib.sortInstanceIds c = some c') : c'.Perm c := by
  rw [Slices.sortInstanceIds] at h
  split at h
  · next ids hids =>
    cases h
    rw [derefs_eq_some.1 hids]
    exact (lib.sort.perm _ ids).map some
  · split_ifs at h
    cases h
    exact .refl _

theorem sortInstanceIds_short {lib : Slices} {c : List (Option InstanceId)} (h : c.length ≤ 1) :
    lib.sortInstanceIds c = some c := by
  rw [Slices.sortInstanceIds]
  split
  · next ids hids =>
    obtain rfl := derefs_eq_some.1 hids
    rw [List.length_map] at h
    have hperm := lib.sort.perm (fun a b => cmpInstanceId a b < 0) ids
    rw [Slices.sortIds]
    match ids, h with
    | [], _ => rw [List.perm_nil.1 hperm]
    | [i], _ => rw [List.perm_singleton.1 hperm]
  · exact if_pos h

theorem preAccepted_attrs {lib : Slices} {s : State} {req : PreAcceptReq} {ins : Instance}
    (h : s.preAccepted lib req = some ins) : ∃ seq deps,
      ins = { req.toInstance .preAccepted with Seq := seq, Deps := deps } := by
  obtain ⟨deps, -, rfl⟩ := Option.map_eq_some_iff.1 h
  exact ⟨_, deps, rfl⟩

theorem lessBallotNumber_iff {a b : BallotNumber} : lessBallotNumber a b = true ↔
    a.Epoch < b.Epoch ∨ a.Epoch = b.Epoch ∧ (a.B < b.B ∨ a.B = b.B ∧ a.R < b.R) := by
  rw [lessBallotNumber]
  split_ifs with he hb
  · simp [he, hb]
  · simp [he, hb]
  · simp [he]

theorem lessBallotNumber_irrefl (a : BallotNumber) : lessBallotNumber a a = false := by
  rw [Bool.eq_false_iff, ne_eq, lessBallotNumber_iff]
  simp

theorem lessBallotNumber_of_le {a b c : BallotNumber} (hab : lessBallotNumber a b = true)
    (hcb : lessBallotNumber c b = false) : lessBallotNumber a c = true := by
  rw [Bool.eq_false_iff, ne_eq, lessBallotNumber_iff] at hcb
  rw [lessBallotNumber_iff] at hab ⊢
  simp only [UInt64.lt_iff_toNat_lt, ← UInt64.toNat_inj] at hab hcb ⊢
  omega

theorem zero_lessBallotNumber {b : BallotNumber} (h : b ≠ .zero) :
    lessBallotNumber .zero b = true := by
  rw [lessBallotNumber_iff]
  by_contra hn
  apply h
  cases b with
  | mk e n r =>
    simp only [BallotNumber.zero, BallotNumber.mk.injEq, UInt64.lt_iff_toNat_lt,
      ← UInt64.toNat_inj, UInt64.toNat_zero] at hn ⊢
    omega

theorem not_lessBallotNumber_zero (a : BallotNumber) : lessBallotNumber a .zero = false := by
  rw [Bool.eq_false_iff, ne_eq, lessBallotNumber_iff]
  simp [BallotNumber.zero]

end Misc.Epaxos
