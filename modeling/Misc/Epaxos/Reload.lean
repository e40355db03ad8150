import Misc.Epaxos.Promise
import Mathlib.Data.List.MinMax
import Mathlib.Data.List.Dedup

namespace Misc.Epaxos
set_option autoImplicit true

/-- What `Persist` holds under the key of each instance. -/
abbrev Stored := InstanceId → Option Instance

def Stored.store (p : Stored) (ins : Instance) : Stored := Function.update p ins.I (some ins)

/-- `MaxSeen` is not stored, and is set to the ballot of the instance that is loaded. -/
def Instance.reloaded (ins : Instance) : Instance := { ins with MaxSeen := ins.Ballot }

def State.loadCmds (s : State) (load : Stored) (keys : List InstanceId) : Option State :=
  keys.foldlM (fun s key => do
    let ins ← load key
    some (s.setCmd ins.reloaded)) { s with cmds := fun _ => none, root := fun _ => none }

def LoadState (load : Stored) (keys : List InstanceId) (instanceIdx : UInt64) : Option State :=
  State.loadCmds { State.empty with instanceIdx } load keys

def before (h : List Instance) : State := h.foldl State.storeCmd .empty

def stored (h : List Instance) : Stored := h.foldl Stored.store fun _ => none

/-- A listing of all the keys that are stored, each of them once. -/
structure Listing (p : Stored) (keys : List InstanceId) : Prop where
  nodup : keys.Nodup
  mem : ∀ id, id ∈ keys ↔ (p id).isSome

def versions (vs : List Instance) (key : List UInt8) : List Instance :=
  vs.filter fun ins => ins.Y.Key = key

/-- The first of the instances with the largest `Seq`. -/
def leader (vs : List Instance) : Option Instance := vs.argmax fun ins => ins.Seq.toNat

def interfOf (vs : List Instance) : UInt64 × List (Option InstanceId) :=
  match leader vs with
  | none => (0, [])
  | some top => (top.Seq, [if top.Seq = 0 then none else some top.I])

def record (vs : List Instance) : Option KeyDep :=
  vs.foldl (fun dep ins => some ((dep.getD .zero).update ins)) none

theorem update_last (dep : KeyDep) (ins : Instance) :
    (dep.update ins).lastSeq = (if dep.lastSeq < ins.Seq then ins.Seq else dep.lastSeq) ∧
      (dep.update ins).lastId = if dep.lastSeq < ins.Seq then some ins.I else dep.lastId := by
  rw [KeyDep.update]
  split_ifs <;> exact ⟨rfl, rfl⟩

theorem leader_concat (vs : List Instance) (ins : Instance) : leader (vs ++ [ins]) =
    match leader vs with
    | none => some ins
    | some top => if top.Seq < ins.Seq then some ins else some top := by
  rw [leader, List.argmax_concat, leader]
  cases List.argmax (fun ins : Instance => ins.Seq.toNat) vs with
  | none => rfl
  | some top => simp only [UInt64.lt_iff_toNat_lt]

theorem record_leader (vs : List Instance) :
    (leader vs = none → record vs = none) ∧
      ∀ top, leader vs = some top → ∃ dep, record vs = some dep ∧ dep.lastSeq = top.Seq ∧
        dep.lastId = if top.Seq = 0 then none else some top.I := by
  induction vs using List.reverseRecOn with
  | nil => exact ⟨fun _ => rfl, nofun⟩
  | append_singleton vs ins ih =>
    have hrec : record (vs ++ [ins]) = some (((record vs).getD .zero).update ins) := by
      rw [record, List.foldl_append]
      rfl
    rw [leader_concat, hrec]
    obtain ⟨hseq, hid⟩ := update_last ((record vs).getD .zero) ins
    cases hl : leader vs with
    | none =>
      refine ⟨nofun, ?_⟩
      rintro _ ⟨⟩
      rw [ih.1 hl] at hseq hid ⊢
      refine ⟨_, rfl, ?_, ?_⟩
      · rw [hseq, Option.getD_none, KeyDep.zero]
        split_ifs with h
        · rfl
        · exact (UInt64.le_zero_iff.1 (UInt64.not_lt.1 h)).symm
      · rw [hid, Option.getD_none, KeyDep.zero]
        dsimp only
        by_cases h : ins.Seq = 0
        · rw [h]
          rfl
        · rw [if_neg h, if_pos (UInt64.pos_iff_ne_zero.2 h)]
    | some old =>
      obtain ⟨dep, hdep, hdseq, hdid⟩ := ih.2 old hl
      rw [hdep, Option.getD_some, hdseq] at hseq hid
      rw [hdep, Option.getD_some]
      dsimp only
      split_ifs at hseq hid ⊢ with h
      · refine ⟨nofun, ?_⟩
        rintro _ ⟨⟩
        refine ⟨_, rfl, hseq, ?_⟩
        rw [hid, if_neg]
        intro h0
        rw [h0] at h
        exact UInt64.not_lt_zero h
      · refine ⟨nofun, ?_⟩
        rintro _ ⟨⟩
        exact ⟨_, rfl, hseq, hid.trans hdid⟩

section
variable {h : List Instance} {vs : List Instance} {ins top : Instance} {key : List UInt8}
  {keys : List InstanceId} {id : InstanceId} {s : State}

theorem leader_mem (hl : leader vs = some top) : top ∈ vs := List.argmax_mem hl

theorem le_leader (hl : leader vs = some top) (hm : ins ∈ vs) : ins.Seq ≤ top.Seq :=
  UInt64.le_iff_toNat_le.2
    (List.le_of_mem_argmax (f := fun ins : Instance => ins.Seq.toNat) hm hl)

theorem leader_none : leader vs = none ↔ vs = [] := List.argmax_eq_none

theorem leader_some (hm : ins ∈ vs) : ∃ top, leader vs = some top := by
  apply Option.ne_none_iff_exists'.1
  intro hn
  rw [leader_none.1 hn] at hm
  exact List.not_mem_nil hm

theorem leader_cons (hmax : ∀ v ∈ vs, v.Seq ≤ ins.Seq) : leader (ins :: vs) = some ins := by
  apply List.mem_argmax_iff.2
  refine ⟨List.mem_cons_self, ?_, ?_⟩
  · rintro v hv
    rcases List.mem_cons.1 hv with rfl | hv
    · exact le_rfl
    · exact UInt64.le_iff_toNat_le.1 (hmax v hv)
  · intro v _ _
    rw [List.idxOf_cons_self]
    exact Nat.zero_le _

theorem mem_versions : ins ∈ versions vs key ↔ ins ∈ vs ∧ ins.Y.Key = key := by
  rw [versions, List.mem_filter, decide_eq_true_eq]

theorem foldl_root (vs : List Instance) (s : State) (hs : s.root key = none) :
    (vs.foldl State.setCmd s).root key = record (versions vs key) := by
  induction vs using List.reverseRecOn with
  | nil => exact hs
  | append_singleton vs ins ih =>
    rw [List.foldl_append, versions, List.filter_append]
    by_cases hk : ins.Y.Key = key
    · subst hk
      rw [List.filter_singleton, decide_eq_true rfl, cond_true, record, List.foldl_append]
      exact (Function.update_self ..).trans (by rw [ih]; rfl)
    · rw [List.filter_singleton, decide_eq_false hk, cond_false, List.append_nil]
      exact (Function.update_of_ne (Ne.symm hk) ..).trans ih

theorem getInterf_record (hr : s.root key = record vs) : s.getInterf key = interfOf vs := by
  rw [State.getInterf, hr, interfOf]
  cases hl : leader vs with
  | none => rw [(record_leader vs).1 hl]
  | some top =>
    obtain ⟨dep, hdep, hseq, hid⟩ := (record_leader vs).2 top hl
    rw [hdep]
    dsimp only
    rw [hid, hseq]

theorem before_getInterf (h : List Instance) (key : List UInt8) :
    (before h).getInterf key = interfOf (versions h key) :=
  getInterf_record (foldl_root h .empty rfl)

theorem before_cmds (h : List Instance) : (before h).cmds = stored h := by
  induction h using List.reverseRecOn with
  | nil => rfl
  | append_singleton h ins ih =>
    rw [before, stored, List.foldl_append, List.foldl_append]
    exact congrArg (fun p => Function.update p ins.I (some ins)) ih

theorem stored_mem (hs : stored h id = some ins) : ins ∈ h ∧ ins.I = id := by
  induction h using List.reverseRecOn with
  | nil => cases hs
  | append_singleton h new ih =>
    rw [stored, List.foldl_append] at hs
    by_cases hi : id = new.I
    · subst hi
      cases (Function.update_self ..).symm.trans hs
      exact ⟨List.mem_append_right h (List.mem_singleton_self _), rfl⟩
    · obtain ⟨hm, hid⟩ := ih ((Function.update_of_ne hi ..).symm.trans hs)
      exact ⟨List.mem_append_left _ hm, hid⟩

theorem stored_isSome : (stored h id).isSome ↔ id ∈ h.map Instance.I := by
  induction h using List.reverseRecOn with
  | nil => exact iff_of_false Bool.false_ne_true List.not_mem_nil
  | append_singleton h new ih =>
    rw [stored, List.foldl_append, List.map_append, List.mem_append]
    by_cases hi : id = new.I
    · subst hi
      apply iff_of_true
      · exact Option.isSome_iff_exists.2 ⟨new, Function.update_self ..⟩
      · exact .inr (List.mem_singleton_self _)
    · have hu : [new].foldl Stored.store (stored h) id = stored h id :=
        Function.update_of_ne hi ..
      rw [← stored, hu, ih]
      exact ⟨.inl, fun hm => hm.resolve_right fun he => hi (List.mem_singleton.1 he)⟩

theorem exists_listing (hs : stored h id = some ins) :
    ∃ keys, Listing (stored h) (id :: keys) := by
  have hmem : id ∈ (h.map Instance.I).dedup := by
    rw [List.mem_dedup, ← stored_isSome, hs]
    rfl
  have hperm := List.perm_cons_erase hmem
  refine ⟨_, hperm.nodup_iff.1 (List.nodup_dedup _), ?_⟩
  intro i
  rw [← hperm.mem_iff, List.mem_dedup, stored_isSome]

def loaded (p : Stored) (keys : List InstanceId) : List Instance :=
  (keys.filterMap p).map Instance.reloaded

theorem loadCmds_eq (p : Stored) (hk : ∀ id ∈ keys, (p id).isSome) (s : State) :
    keys.foldlM (fun s key => do
      let ins ← p key
      some (s.setCmd ins.reloaded)) s = some ((loaded p keys).foldl State.setCmd s) := by
  induction keys generalizing s with
  | nil => rfl
  | cons id keys ih =>
    obtain ⟨ins, hins⟩ := Option.isSome_iff_exists.1 (hk id List.mem_cons_self)
    rw [List.foldlM_cons, loaded, List.filterMap_cons_some hins, hins]
    exact ih (fun i hi => hk i (List.mem_cons_of_mem _ hi)) _

theorem loadState_eq (hk : Listing (stored h) keys) (idx : UInt64) :
    LoadState (stored h) keys idx =
      some ((loaded (stored h) keys).foldl State.setCmd
        { State.empty with instanceIdx := idx }) :=
  loadCmds_eq _ (fun id hid => (hk.mem id).1 hid) _

theorem mem_loaded (hk : Listing (stored h) keys) : ins ∈ versions (loaded (stored h) keys) key ↔
    ∃ old, stored h old.I = some old ∧ old.Y.Key = key ∧ ins = old.reloaded := by
  rw [mem_versions, loaded, List.mem_map]
  constructor
  · rintro ⟨⟨old, hold, rfl⟩, hkey⟩
    obtain ⟨id, -, hid⟩ := List.mem_filterMap.1 hold
    obtain ⟨-, rfl⟩ := stored_mem hid
    exact ⟨old, hid, hkey, rfl⟩
  · rintro ⟨old, hold, hkey, rfl⟩
    refine ⟨⟨old, List.mem_filterMap.2 ⟨old.I, ?_, hold⟩, rfl⟩, hkey⟩
    rw [hk.mem, hold]
    rfl

theorem loaded_cmds (hk : Listing (stored h) keys) (s : State) (hs : s.cmds = fun _ => none) :
    ((loaded (stored h) keys).foldl State.setCmd s).cmds id =
      (stored h id).map Instance.reloaded := by
  have hall (l : List InstanceId) : ((loaded (stored h) l).foldl State.setCmd s).cmds id =
      if id ∈ l then (stored h id).map Instance.reloaded else none := by
    induction l using List.reverseRecOn with
    | nil =>
      rw [if_neg List.not_mem_nil, loaded, List.filterMap_nil, List.map_nil, List.foldl_nil, hs]
    | append_singleton l i ih =>
      rw [loaded, List.filterMap_append, List.map_append, List.foldl_append, ← loaded]
      cases hi : stored h i with
      | none =>
        rw [List.filterMap_cons_none hi, List.filterMap_nil, List.map_nil, List.foldl_nil, ih]
        by_cases he : id = i
        · subst he
          rw [hi, Option.map_none, ite_self, ite_self]
        · simp [he]
      | some ins =>
        obtain ⟨-, rfl⟩ := stored_mem hi
        rw [List.filterMap_cons_some hi, List.filterMap_nil, List.map_singleton, List.foldl_cons,
          List.foldl_nil]
        by_cases he : id = ins.I
        · subst he
          rw [hi, if_pos (List.mem_append_right _ (List.mem_singleton_self _))]
          exact Function.update_self ..
        · refine (Function.update_of_ne he ..).trans (ih.trans ?_)
          simp [he]
  rw [hall]
  split_ifs with hm
  · rfl
  · rw [hk.mem, Bool.not_eq_true, Option.isSome_eq_false_iff, Option.isNone_iff_eq_none] at hm
    rw [hm, Option.map_none]

theorem loadState_getInterf (hk : Listing (stored h) keys)
    (hs : LoadState (stored h) keys idx = some s)
    (key : List UInt8) : s.getInterf key = interfOf (versions (loaded (stored h) keys) key) := by
  rw [loadState_eq hk] at hs
  cases hs
  exact getInterf_record (foldl_root _ _ rfl)

/-- The first instance with the largest `Seq` of the key is still stored with that `Seq`, and no
other instance of the key has it; a key whose `Seq`s are all zero has some instance left. -/
def Settled (p : Stored) (key : List UInt8) (top : Instance) : Prop :=
  if top.Seq = 0 then ∃ ins, p ins.I = some ins ∧ ins.Y.Key = key
  else (∃ ins, p top.I = some ins ∧ ins.Y.Key = key ∧ ins.Seq = top.Seq) ∧
    ∀ id ins, p id = some ins → ins.Y.Key = key → ins.Seq = top.Seq → id = top.I

theorem loaded_le (hk : Listing (stored h) keys) (hl : leader (versions h key) = some top)
    (hm : ins ∈ versions (loaded (stored h) keys) key) : ins.Seq ≤ top.Seq := by
  obtain ⟨old, hold, hkey, rfl⟩ := (mem_loaded hk).1 hm
  have hle : old.Seq ≤ top.Seq := le_leader hl (mem_versions.2 ⟨(stored_mem hold).1, hkey⟩)
  exact hle

/-- A settled key is found in the same way after any listing. -/
theorem Settled.interf (ht : Settled (stored h) key top)
    (hl : leader (versions h key) = some top)
    (hk : Listing (stored h) keys) :
    interfOf (versions (loaded (stored h) keys) key) = interfOf (versions h key) := by
  rw [Settled] at ht
  simp only [interfOf, hl]
  split_ifs at ht ⊢ with h0
  · obtain ⟨ins, hins, hkey⟩ := ht
    obtain ⟨low, hlow⟩ := leader_some ((mem_loaded hk).2 ⟨ins, hins, hkey, rfl⟩)
    have hle := loaded_le hk hl (leader_mem hlow)
    rw [h0, UInt64.le_zero_iff] at hle
    simp only [hlow, hle, h0, if_true]
  · obtain ⟨⟨ins, hins, hkey, hseq⟩, huniq⟩ := ht
    obtain ⟨-, hid⟩ := stored_mem hins
    rw [← hid] at hins
    have hm := (mem_loaded hk).2 ⟨ins, hins, hkey, rfl⟩
    obtain ⟨new, hnew⟩ := leader_some hm
    have hge : ins.reloaded.Seq ≤ new.Seq := le_leader hnew hm
    rw [show ins.reloaded.Seq = top.Seq from hseq] at hge
    have heq : new.Seq = top.Seq := UInt64.le_antisymm (loaded_le hk hl (leader_mem hnew)) hge
    obtain ⟨old, hold, hkey', rfl⟩ := (mem_loaded hk).1 (leader_mem hnew)
    have hi : old.reloaded.I = top.I := huniq old.I old hold hkey' heq
    simp only [hnew, heq, if_neg h0, hi]

theorem settled_of_interf (hl : leader (versions h key) = some top)
    (hall : ∀ keys, Listing (stored h) keys →
      interfOf (versions (loaded (stored h) keys) key) = interfOf (versions h key)) :
    Settled (stored h) key top := by
  have hfirst {id ins} (hs : stored h id = some ins) := exists_listing hs
  obtain ⟨cur, hcur⟩ : ∃ cur, stored h top.I = some cur := by
    apply Option.isSome_iff_exists.1
    rw [stored_isSome]
    exact List.mem_map_of_mem (mem_versions.1 (leader_mem hl)).1
  obtain ⟨keys, hk⟩ := exists_listing hcur
  have heq := hall _ hk
  simp only [interfOf, hl] at heq
  rw [Settled]
  split_ifs at heq ⊢ with h0
  · cases hnew : leader (versions (loaded (stored h) (top.I :: keys)) key) with
    | none =>
      -- an empty listing leaves no record, whose dependencies are not those of a record
      rw [hnew] at heq
      injection heq with _ hdeps
      cases hdeps
    | some new =>
      obtain ⟨old, hold, hkey, -⟩ := (mem_loaded hk).1 (leader_mem hnew)
      exact ⟨old, hold, hkey⟩
  · constructor
    · cases hnew : leader (versions (loaded (stored h) (top.I :: keys)) key) with
      | none =>
        rw [hnew] at heq
        injection heq with hseq
        exact absurd hseq.symm h0
      | some new =>
        obtain ⟨old, hold, hkey, rfl⟩ := (mem_loaded hk).1 (leader_mem hnew)
        rw [hnew] at heq
        injection heq with hseq hid
        have hne : old.reloaded.Seq ≠ 0 := fun hz => h0 (hseq.symm.trans hz)
        rw [if_neg hne] at hid
        injection hid with hid
        injection hid with hid
        rw [← hid]
        exact ⟨old, hold, hkey, hseq⟩
    · intro id ins hins hkey hseq
      obtain ⟨keys', hk'⟩ := exists_listing hins
      obtain ⟨-, rfl⟩ := stored_mem hins
      have heq' := hall _ hk'
      have hcons : versions (loaded (stored h) (ins.I :: keys')) key =
          ins.reloaded :: versions (loaded (stored h) keys') key := by
        rw [loaded, List.filterMap_cons_some hins, List.map_cons]
        exact List.filter_cons_of_pos (decide_eq_true hkey)
      have hlead : leader (versions (loaded (stored h) (ins.I :: keys')) key) =
          some ins.reloaded := by
        rw [hcons]
        apply leader_cons
        intro v hv
        have hle := loaded_le hk' hl (hcons ▸ List.mem_cons_of_mem _ hv)
        exact hseq.symm ▸ hle
      have h0' : ¬ ins.reloaded.Seq = 0 := fun hz => h0 (hseq.symm.trans hz)
      simp only [interfOf, hl, hlead, if_neg h0, if_neg h0'] at heq'
      injection heq' with _ hid
      injection hid with hid
      injection hid

/-- What a reload has to give back: every instance, and what interferes with every key. -/
def Restored (s t : State) : Prop :=
  (∀ id, t.getCmd id = (s.getCmd id).map Instance.reloaded) ∧
    ∀ key, t.getInterf key = s.getInterf key

/-- Every listing restores the replica exactly when every key is settled. -/
theorem reload_iff (h : List Instance) (idx : UInt64) :
    (∀ keys, Listing (stored h) keys →
      ∃ t, LoadState (stored h) keys idx = some t ∧ Restored (before h) t) ↔
    ∀ key top, leader (versions h key) = some top → Settled (stored h) key top := by
  constructor
  · intro hall key top hl
    apply settled_of_interf hl
    intro keys hk
    obtain ⟨t, ht, -, hinterf⟩ := hall keys hk
    rw [← loadState_getInterf hk ht, hinterf, before_getInterf]
  · intro hall keys hk
    refine ⟨_, loadState_eq hk idx, ?_, ?_⟩
    · intro id
      rw [State.getCmd, State.getCmd, before_cmds]
      exact loaded_cmds hk _ rfl
    · intro key
      rw [loadState_getInterf hk (loadState_eq hk idx), before_getInterf]
      cases hl : leader (versions h key) with
      | some top => exact (hall key top hl).interf hl hk
      | none =>
        have hn : versions (loaded (stored h) keys) key = [] := by
          apply List.eq_nil_iff_forall_not_mem.2
          intro ins hm
          obtain ⟨old, hold, hkey, -⟩ := (mem_loaded hk).1 hm
          have hv : old ∈ versions h key := mem_versions.2 ⟨(stored_mem hold).1, hkey⟩
          rw [leader_none.1 hl] at hv
          exact List.not_mem_nil hv
        rw [hn, leader_none.1 hl]

/-- A write that was replaced by a no-op interferes before the crash and not after it. -/
theorem reload_forgets : ¬ ∀ (h : List Instance) (idx : UInt64) (keys : List InstanceId),
    Listing (stored h) keys →
      ∃ t, LoadState (stored h) keys idx = some t ∧ Restored (before h) t := by
  intro hall
  let write : Instance :=
    ⟨⟨0, 1⟩, ⟨0, 0, 0⟩, ⟨0, 0, 0⟩, .preAccepted, ⟨.w, [107], some [1]⟩, 1, []⟩
  let noop : Instance := ⟨⟨0, 1⟩, ⟨0, 1, 1⟩, ⟨0, 1, 1⟩, .preAccepted, .nop, 1, []⟩
  have hk : Listing (stored [write, noop]) [⟨0, 1⟩] := by
    refine ⟨List.nodup_singleton _, ?_⟩
    intro id
    rw [stored_isSome]
    simp [write, noop]
  obtain ⟨t, ht, -, hinterf⟩ := hall _ 1 _ hk
  have hnone := hinterf [107]
  rw [loadState_getInterf hk ht, before_getInterf] at hnone
  revert hnone
  decide

end

end Misc.Epaxos
