import Misc.Epaxos.State

namespace Misc.Epaxos
set_option autoImplicit true

/-- `make` with a length, followed by `copy`. -/
def grown (zero : α) (n : Nat) (t : List α) : List α :=
  t.take n ++ List.replicate (n - t.length) zero

/-- The slices in which a replica keeps its instances: a row for each replica, by index. -/
abbrev CmdRows := List (List (Option Instance))

def CmdRows.getCmd (cmds : CmdRows) (id : InstanceId) : Option Instance :=
  match cmds[id.Rid.toNat]? with
  | some cmdsR => cmdsR[id.Index.toNat]?.join
  | none => none

/-- The writes of `setCmdLocked` to the slices; `none` is an index out of range. -/
def CmdRows.setCmd (cmds : CmdRows) (ins : Instance) : Option CmdRows :=
  let cmds := if cmds.length ≤ ins.I.Rid.toNat then grown [] ins.I.Rid.toNat cmds else cmds
  match cmds[ins.I.Rid.toNat]? with
  | some cmdsR =>
    let cmdsR := if cmdsR.length ≤ ins.I.Index.toNat then
      grown none (ins.I.Index + 1).toNat cmdsR else cmdsR
    if ins.I.Index.toNat < cmdsR.length then
      some (cmds.set ins.I.Rid.toNat (cmdsR.set ins.I.Index.toNat (some ins)))
    else none
  | none => none

structure Table where
  cmds : CmdRows
  root : List UInt8 → Option KeyDep
  instanceIdx : UInt64

def Table.empty (instanceIdx : UInt64) : Table := ⟨[], fun _ => none, instanceIdx⟩

def Table.setCmd (t : Table) (ins : Instance) : Option Table :=
  (t.cmds.setCmd ins).map fun cmds =>
    { t with
      cmds
      root :=
        Function.update t.root ins.Y.Key (some (((t.root ins.Y.Key).getD .zero).update ins)) }

/-- The state whose map the table is. -/
def Table.view (t : Table) : State := ⟨t.cmds.getCmd, t.root, t.instanceIdx⟩

/-- The instance that was stored last under an id. -/
def lastStored (stored : List Instance) (id : InstanceId) : Option Instance :=
  stored.reverse.find? fun ins => ins.I = id

/-- No index is out of range while the instances are stored, and then each is found as in a
map. -/
def Table.IsMap (t : Table) (stored : List Instance) : Prop :=
  ∃ t', stored.foldlM setCmd t = some t' ∧ ∀ id, t'.cmds.getCmd id = lastStored stored id

section
variable {cmds cmds' : CmdRows} {cmdsR : List (Option Instance)} {ins : Instance} {t t' : Table}
  {id : InstanceId} {stored : List Instance}

theorem length_grown (zero : α) (n : Nat) (t : List α) : (grown zero n t).length = n := by
  rw [grown, List.length_append, List.length_take, List.length_replicate]
  omega

theorem getElem?_grown {n : Nat} {t : List (Option α)} (h : t.length ≤ n) (i : Nat) :
    (grown none n t)[i]?.join = t[i]?.join := by
  rw [grown, List.take_of_length_le h, List.getElem?_append]
  split_ifs with hi
  · rfl
  · rw [List.getElem?_eq_none (Nat.le_of_not_lt hi), List.getElem?_replicate]
    split_ifs <;> rfl

/-- A row that is missing stays missing: the new slice ends just before it. -/
theorem CmdRows.setCmd_missing (h : cmds.length ≤ ins.I.Rid.toNat) : cmds.setCmd ins = none := by
  rw [setCmd, if_pos h, List.getElem?_eq_none]
  rw [length_grown]

/-- A row that is there takes the instance, unless the length of the new row wraps. -/
theorem CmdRows.setCmd_row (h : cmds[ins.I.Rid.toNat]? = some cmdsR)
    (hindex : ins.I.Index + 1 ≠ 0) :
    ∃ row : List (Option Instance), ins.I.Index.toNat < row.length ∧
      (∀ i : Nat, row[i]?.join = cmdsR[i]?.join) ∧
      cmds.setCmd ins =
        some (cmds.set ins.I.Rid.toNat (row.set ins.I.Index.toNat (some ins))) := by
  have hrid : ¬ cmds.length ≤ ins.I.Rid.toNat := by
    rw [Nat.not_le]
    exact (List.getElem?_eq_some_iff.1 h).1
  have hn : (ins.I.Index + 1).toNat = ins.I.Index.toNat + 1 := by
    have hlt := ins.I.Index.toNat_lt
    rw [ne_eq, ← UInt64.toNat_inj, UInt64.toNat_add] at hindex
    rw [UInt64.toNat_add]
    simp only [UInt64.reduceToNat] at hindex ⊢
    omega
  rw [setCmd, if_neg hrid, h]
  dsimp only
  by_cases hlen : cmdsR.length ≤ ins.I.Index.toNat
  · have hlt : ins.I.Index.toNat < (grown none (ins.I.Index + 1).toNat cmdsR).length := by
      rw [length_grown, hn]
      exact Nat.lt_succ_self _
    refine ⟨grown none (ins.I.Index + 1).toNat cmdsR, hlt, ?_, ?_⟩
    · exact getElem?_grown (by omega)
    · rw [if_pos hlen, if_pos hlt]
  · refine ⟨cmdsR, Nat.lt_of_not_le hlen, fun _ => rfl, ?_⟩
    rw [if_neg hlen, if_pos (Nat.lt_of_not_le hlen)]

theorem CmdRows.getCmd_setCmd (hindex : ins.I.Index + 1 ≠ 0) (h : cmds.setCmd ins = some cmds') :
    cmds'.length = cmds.length ∧
      cmds'.getCmd = Function.update cmds.getCmd ins.I (some ins) := by
  cases hrow : cmds[ins.I.Rid.toNat]? with
  | none =>
    rw [setCmd_missing (List.getElem?_eq_none_iff.1 hrow)] at h
    cases h
  | some cmdsR =>
    obtain ⟨row, hlt, hsame, hset⟩ := setCmd_row hrow hindex
    rw [hset] at h
    cases h
    refine ⟨List.length_set, ?_⟩
    funext id
    have hrid := (List.getElem?_eq_some_iff.1 hrow).1
    by_cases heq : id.Rid = ins.I.Rid
    · rw [getCmd, heq, List.getElem?_set_self hrid]
      dsimp only
      by_cases hi : id.Index = ins.I.Index
      · have hid : id = ins.I := by
          cases id
          cases hI : ins.I
          simp_all
        rw [hi, List.getElem?_set_self hlt, hid, Function.update_self]
        rfl
      · have hne : ins.I.Index.toNat ≠ id.Index.toNat :=
          fun he => hi (UInt64.toNat_inj.1 he.symm)
        rw [List.getElem?_set_ne hne, hsame, Function.update_of_ne fun he =>
          hi (congrArg _ he), getCmd, heq, hrow]
    · have hne : ins.I.Rid.toNat ≠ id.Rid.toNat := fun he => heq (UInt64.toNat_inj.1 he.symm)
      rw [getCmd, List.getElem?_set_ne hne, Function.update_of_ne fun he =>
        heq (congrArg _ he), getCmd]

theorem CmdRows.setCmd_isSome (hrid : ins.I.Rid.toNat < cmds.length)
    (hindex : ins.I.Index + 1 ≠ 0) : ∃ cmds', cmds.setCmd ins = some cmds' := by
  obtain ⟨row, -, -, hset⟩ := setCmd_row (List.getElem?_eq_getElem hrid) hindex
  exact ⟨_, hset⟩

/-- A store that finds its row does to the map what `State.setCmd` does. -/
theorem Table.view_setCmd (hrid : ins.I.Rid.toNat < t.cmds.length)
    (hindex : ins.I.Index + 1 ≠ 0) :
    ∃ t', t.setCmd ins = some t' ∧ t'.cmds.length = t.cmds.length ∧
      t'.view = t.view.setCmd ins := by
  obtain ⟨cmds', hset⟩ := CmdRows.setCmd_isSome hrid hindex
  obtain ⟨hlen, hget⟩ := CmdRows.getCmd_setCmd hindex hset
  refine ⟨_, by rw [setCmd, hset]; rfl, hlen, ?_⟩
  rw [view, State.setCmd, hget]
  rfl

theorem State.foldl_setCmd (stored : List Instance) (s : State) (id : InstanceId) :
    (stored.foldl setCmd s).cmds id = (lastStored stored id).or (s.cmds id) := by
  induction stored generalizing s with
  | nil => rfl
  | cons ins stored ih =>
    rw [List.foldl_cons, ih, lastStored, lastStored, List.reverse_cons,
      List.find?_append, Option.or_assoc]
    congr 1
    by_cases h : ins.I = id
    · rw [List.find?_singleton, if_pos (decide_eq_true h), ← h]
      exact Function.update_self ..
    · rw [List.find?_singleton, if_neg (by simpa using h)]
      exact Function.update_of_ne (Ne.symm h) ..

theorem Table.view_foldlM
    (h : ∀ ins ∈ stored, ins.I.Rid.toNat < t.cmds.length ∧ ins.I.Index + 1 ≠ 0) :
    ∃ t', stored.foldlM setCmd t = some t' ∧ t'.view = stored.foldl State.setCmd t.view := by
  induction stored generalizing t with
  | nil => exact ⟨t, rfl, rfl⟩
  | cons ins stored ih =>
    obtain ⟨hrid, hindex⟩ := h ins List.mem_cons_self
    obtain ⟨t₁, hset, hlen, hview⟩ := view_setCmd hrid hindex
    obtain ⟨t', hfold, ht'⟩ := ih (t := t₁) fun ins hins => by
      rw [hlen]
      exact h ins (List.mem_cons_of_mem _ hins)
    refine ⟨t', ?_, by rw [ht', hview]; rfl⟩
    rw [List.foldlM_cons, hset]
    exact hfold

theorem Table.isMap_of_rows (hempty : ∀ id, t.cmds.getCmd id = none)
    (h : ∀ ins ∈ stored, ins.I.Rid.toNat < t.cmds.length ∧ ins.I.Index + 1 ≠ 0) :
    t.IsMap stored := by
  obtain ⟨t', hfold, hview⟩ := view_foldlM h
  refine ⟨t', hfold, ?_⟩
  intro id
  have hcmds := State.foldl_setCmd stored t.view id
  rw [← hview] at hcmds
  dsimp only [view] at hcmds
  rw [hcmds, hempty, Option.or_none]

/-- The empty table has no row, and no store adds the one that it needs. -/
theorem Table.empty_isMap_iff (instanceIdx : UInt64) (stored : List Instance) :
    (empty instanceIdx).IsMap stored ↔ stored = [] := by
  constructor
  · rintro ⟨t', hfold, -⟩
    cases stored with
    | nil => rfl
    | cons ins stored =>
      have hnone : (empty instanceIdx).setCmd ins = none := by
        rw [setCmd, CmdRows.setCmd_missing]
        · rfl
        · exact Nat.zero_le _
      rw [List.foldlM_cons, hnone] at hfold
      cases hfold
  · rintro rfl
    exact ⟨empty instanceIdx, rfl, fun _ => rfl⟩

end

/-- The first instance of the replica with number zero is not stored. -/
theorem Table.not_isMap_first : ¬ (empty 0).IsMap
    [⟨⟨0, 1⟩, ⟨1, 0, 0⟩, ⟨1, 0, 0⟩, .preAccepted, ⟨.w, [1], some [2]⟩, 1, []⟩] := by
  rintro ⟨t', hfold, -⟩
  cases hfold

end Misc.Epaxos
