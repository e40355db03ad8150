import Misc.Epaxos.Votes

namespace Misc.Epaxos
set_option autoImplicit true

variable {lib : Slices} {s : State} {req : PreAcceptReq}

/-- The request is handled twice in a row, the second time as the first. -/
structure Redelivered (lib : Slices) (s : State) (req : PreAcceptReq) : Prop where
  seq : ((s.preAccept lib req).1.preAccept lib req).2.map PreAcceptResp.Seq =
    (s.preAccept lib req).2.map PreAcceptResp.Seq
  deps : ((s.preAccept lib req).1.preAccept lib req).2.map PreAcceptResp.Deps =
    (s.preAccept lib req).2.map PreAcceptResp.Deps
  stored : ((s.preAccept lib req).1.preAccept lib req).1.getCmd req.I =
    (s.preAccept lib req).1.getCmd req.I
  record : ((s.preAccept lib req).1.preAccept lib req).1.root req.Y.Key =
    (s.preAccept lib req).1.root req.Y.Key
  notOwn : ∀ resp ∈ (s.preAccept lib req).2, some req.I ∉ resp.Deps

def State.Grants (lib : Slices) (s : State) (req : PreAcceptReq) : Prop :=
  ∃ resp, (s.preAccept lib req).2 = some resp ∧ resp.Ok = true

def State.keyDep (s : State) (key : List UInt8) : KeyDep := (s.root key).getD .zero

theorem State.getInterf_seq (s : State) (key : List UInt8) :
    (s.getInterf key).1 = (s.keyDep key).lastSeq := by
  rw [getInterf, keyDep]
  cases s.root key with
  | none => rfl
  | some dep => rfl

theorem State.mem_getInterf {key : List UInt8} {i : InstanceId} :
    some i ∈ (s.getInterf key).2 ↔ (s.keyDep key).lastId = some i := by
  rw [getInterf, keyDep]
  cases s.root key with
  | none => exact iff_of_false List.not_mem_nil nofun
  | some dep => exact List.mem_singleton.trans eq_comm

/-- The `Seq` of an instance after the largest of its key and the one that is asked for. -/
def nextSeq (maxSeq seq : UInt64) : UInt64 := if maxSeq < seq then seq else maxSeq + 1

theorem nextSeq_ne (maxSeq seq : UInt64) : nextSeq maxSeq seq ≠ maxSeq := by
  rw [nextSeq]
  split_ifs with h
  · intro he
    exact UInt64.lt_irrefl _ (he ▸ h)
  · simp

theorem lt_nextSeq {maxSeq seq : UInt64} : maxSeq < nextSeq maxSeq seq ↔ maxSeq + 1 ≠ 0 := by
  rw [nextSeq, UInt64.lt_iff_toNat_lt, ne_eq, ← UInt64.toNat_inj, UInt64.toNat_add]
  have hlt := maxSeq.toNat_lt
  have hseq := seq.toNat_lt
  split_ifs with h
  · rw [UInt64.lt_iff_toNat_lt] at h
    simp only [UInt64.reduceToNat]
    omega
  · rw [UInt64.toNat_add]
    simp only [UInt64.reduceToNat]
    omega

theorem State.preAccepted_seq {ins : Instance} (h : s.preAccepted lib req = some ins) :
    ins.Seq = nextSeq (s.keyDep req.Y.Key).lastSeq req.Seq := by
  obtain ⟨deps, -, rfl⟩ := Option.map_eq_some_iff.1 h
  rw [← getInterf_seq, nextSeq]

theorem State.mem_preAccepted_deps {ins : Instance} {i : InstanceId} (hunion : lib.Unites)
    (h : s.preAccepted lib req = some ins) :
    some i ∈ ins.Deps ↔ (s.keyDep req.Y.Key).lastId = some i ∨ some i ∈ req.Deps := by
  obtain ⟨mergedDeps, hmerged, rfl⟩ := Option.map_eq_some_iff.1 h
  obtain ⟨cmdDeps, hcmd, hmerged⟩ := Option.bind_eq_some_iff.1 hmerged
  obtain ⟨deps, hdeps, hmerged⟩ := Option.bind_eq_some_iff.1 hmerged
  rw [hunion _ _ _ hmerged, (sortInstanceIds_perm hcmd).mem_iff,
    (sortInstanceIds_perm hdeps).mem_iff, mem_getInterf]

theorem State.preAccepted_congr {s' : State} (h : s'.root req.Y.Key = s.root req.Y.Key) :
    s'.preAccepted lib req = s.preAccepted lib req := by
  rw [preAccepted, preAccepted, mergedDeps, mergedDeps, getInterf, getInterf, h]

def PreAcceptResp.granted (ins : Instance) : PreAcceptResp :=
  ⟨true, ins.Ballot, some ins.Y, ins.Seq, ins.Deps, some ins.I⟩

theorem State.Grants.eq (h : s.Grants lib req) : ∃ ins, s.preAccepted lib req = some ins ∧
    s.preAccept lib req = (s.setCmd ins, some (.granted ins)) := by
  have hstore (h : (preAccept.store lib s req).2 ≠ none) :
      ∃ ins, s.preAccepted lib req = some ins ∧
        preAccept.store lib s req = (s.setCmd ins, some (.granted ins)) := by
    rw [preAccept.store] at h ⊢
    cases hins : s.preAccepted lib req with
    | none =>
      rw [hins] at h
      exact absurd rfl h
    | some ins => exact ⟨ins, rfl, rfl⟩
  obtain ⟨resp, hresp, hok⟩ := h
  rw [preAccept] at hresp ⊢
  cases hget : s.getCmd req.I with
  | none =>
    rw [hget] at hresp
    exact hstore (Option.ne_none_iff_exists'.2 ⟨resp, hresp⟩)
  | some curr =>
    rw [hget] at hresp
    dsimp only at hresp ⊢
    split_ifs at hresp ⊢
    · cases hresp
      cases hok
    · exact hstore (Option.ne_none_iff_exists'.2 ⟨resp, hresp⟩)

theorem State.granted_of_ok {resp : PreAcceptResp} (h : (s.preAccept lib req).2 = some resp)
    (hok : resp.Ok = true) : ∃ ins, s.preAccepted lib req = some ins ∧ resp = .granted ins := by
  obtain ⟨ins, hins, heq⟩ := Grants.eq ⟨resp, h, hok⟩
  rw [heq] at h
  exact ⟨ins, hins, (Option.some.inj h).symm⟩

theorem State.getCmd_setCmd (s : State) (ins : Instance) :
    (s.setCmd ins).getCmd ins.I = some ins :=
  Function.update_self ..

theorem State.preAccept_again {ins : Instance} (h : s.preAccepted lib req = some ins) :
    (s.setCmd ins).preAccept lib req = preAccept.store lib (s.setCmd ins) req := by
  have hget := s.getCmd_setCmd ins
  obtain ⟨seq, deps, rfl⟩ := preAccepted_attrs h
  change (s.setCmd _).getCmd req.I = _ at hget
  rw [preAccept, hget]
  dsimp only
  rw [if_neg]
  rintro (hless | hstate)
  · exact Bool.false_ne_true ((lessBallotNumber_irrefl _).symm.trans hless)
  · cases hstate

theorem State.root_setCmd (s : State) (ins : Instance) :
    (s.setCmd ins).root ins.Y.Key = some ((s.keyDep ins.Y.Key).update ins) :=
  Function.update_self ..

theorem KeyDep.update_lastSeq (dep : KeyDep) (ins : Instance) :
    (dep.update ins).lastSeq = if dep.lastSeq < ins.Seq then ins.Seq else dep.lastSeq := by
  rw [update]
  split_ifs <;> rfl

/-- An instance with `Seq` zero leaves the record as it is. -/
theorem KeyDep.update_zero (dep : KeyDep) {ins : Instance} (h : ins.Seq = 0) :
    dep.update ins = dep := by
  rw [update, h, if_neg UInt64.not_lt_zero, if_neg fun hw => UInt64.not_lt_zero hw.2]

/-- The handler stores a `Seq` above the record that it finds, and the record then has that
`Seq`: a second pass goes above it again, unless the numbers have ended. -/
theorem redelivered_iff (hunion : lib.Unites) (h : s.Grants lib req) :
    Redelivered lib s req ↔ (s.keyDep req.Y.Key).lastSeq + 1 = 0 ∧
      (s.keyDep req.Y.Key).lastId ≠ some req.I ∧ some req.I ∉ req.Deps := by
  obtain ⟨ins, hins, hfirst⟩ := h.eq
  have hsecond := State.preAccept_again hins
  have hseq := State.preAccepted_seq hins
  have hown : some req.I ∉ ins.Deps ↔
      (s.keyDep req.Y.Key).lastId ≠ some req.I ∧ some req.I ∉ req.Deps := by
    rw [State.mem_preAccepted_deps hunion hins, not_or]
  have hkey : ins.Y.Key = req.Y.Key ∧ ins.I = req.I := by
    obtain ⟨seq, deps, rfl⟩ := preAccepted_attrs hins
    exact ⟨rfl, rfl⟩
  have hroot := s.root_setCmd ins
  rw [hkey.1] at hroot
  rw [← hown]
  constructor
  · intro hr
    have hnot := hr.notOwn (.granted ins) (by rw [hfirst]; rfl)
    refine ⟨?_, hnot⟩
    by_contra hlast
    have hlt : (s.keyDep req.Y.Key).lastSeq < ins.Seq := by
      rw [hseq, lt_nextSeq]
      exact hlast
    have hagain := hr.seq
    rw [hfirst, hsecond, State.preAccept.store] at hagain
    cases hnew : (s.setCmd ins).preAccepted lib req with
    | none =>
      rw [hnew] at hagain
      cases hagain
    | some new =>
      rw [hnew] at hagain
      have hsame : new.Seq = ins.Seq := Option.some.inj hagain
      have hnext := State.preAccepted_seq hnew
      rw [State.keyDep, hroot, Option.getD_some, KeyDep.update_lastSeq, if_pos hlt] at hnext
      exact nextSeq_ne _ _ (hnext.symm.trans hsame)
  · rintro ⟨hlast, hnot⟩
    have hzero : ins.Seq = 0 := by
      have hle : ¬ (s.keyDep req.Y.Key).lastSeq < ins.Seq := by
        rw [hseq, lt_nextSeq]
        exact not_not_intro hlast
      rw [hseq, nextSeq] at hle ⊢
      split_ifs at hle ⊢ with hlt
      · exact absurd hlt hle
      · exact hlast
    have hsome : s.root req.Y.Key = some (s.keyDep req.Y.Key) := by
      rw [State.keyDep] at hlast ⊢
      cases hr : s.root req.Y.Key with
      | none =>
        rw [hr] at hlast
        cases hlast
      | some dep => rfl
    rw [KeyDep.update_zero _ hzero, ← hsome] at hroot
    rw [State.preAccept.store, State.preAccepted_congr hroot, hins] at hsecond
    have hagain := (s.setCmd ins).root_setCmd ins
    rw [KeyDep.update_zero _ hzero, State.keyDep, hkey.1, hroot, hsome,
      Option.getD_some] at hagain
    constructor
    · rw [hfirst, hsecond]
      rfl
    · rw [hfirst, hsecond]
      rfl
    · rw [hfirst, hsecond, ← hkey.2]
      exact ((s.setCmd ins).getCmd_setCmd ins).trans (s.getCmd_setCmd ins).symm
    · rw [hfirst, hsecond, hroot, hsome]
      exact hagain
    · rw [hfirst]
      rintro _ ⟨⟩
      exact hnot

def firstWrite : PreAcceptReq := ⟨⟨1, 0, 0⟩, ⟨.w, [1], some [2]⟩, 1, [], ⟨0, 1⟩⟩

theorem redelivered_iff_empty : Redelivered Litu.plain.toSlices .empty firstWrite ↔
    (State.empty.keyDep [1]).lastSeq + 1 = 0 ∧
      (State.empty.keyDep [1]).lastId ≠ some ⟨0, 1⟩ ∧ some ⟨0, 1⟩ ∉ firstWrite.Deps :=
  redelivered_iff plain_unites ⟨_, rfl, rfl⟩

theorem not_redelivered : ¬ ∀ (lib : Slices) (s : State) (req : PreAcceptReq),
    lib.Unites → s.Grants lib req → Redelivered lib s req := by
  intro h
  have hseq := (h Litu.plain.toSlices .empty firstWrite plain_unites ⟨_, rfl, rfl⟩).seq
  revert hseq
  decide

end Misc.Epaxos
