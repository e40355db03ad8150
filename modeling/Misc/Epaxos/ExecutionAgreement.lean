import Misc.Epaxos.ExecutionOrder

namespace Misc.Epaxos
open Misc.Lib.Graph
set_option autoImplicit true

variable {L L' : CommittedLog} {sort : SortSlice InstanceId} {x y r₁ r₂ : InstanceId}

/-- The logs differ only in the order in which each instance lists its dependencies. -/
def CommittedLog.Reorders (L L' : CommittedLog) : Prop :=
  ∀ id, (L.cmds id = none ∧ L'.cmds id = none) ∨
    ∃ ins deps, L.cmds id = some ins ∧ deps.Perm ins.Deps ∧
      L'.cmds id = some { ins with Deps := deps }

theorem CommittedLog.Reorders.refl (L : CommittedLog) : L.Reorders L := by
  intro id
  cases h : L.cmds id with
  | none => exact .inl ⟨rfl, rfl⟩
  | some ins => exact .inr ⟨ins, ins.Deps, rfl, .refl _, rfl⟩

theorem CommittedLog.Reorders.mem_deps (h : L.Reorders L') :
    y ∈ L'.cmds.deps x ↔ y ∈ L.cmds.deps x := by
  rw [Cmds.mem_deps, Cmds.mem_deps]
  rcases h x with ⟨hL, hL'⟩ | ⟨ins, deps, hL, hperm, hL'⟩
  · rw [hL, hL']
  · rw [hL, hL']
    constructor
    · rintro ⟨_, ⟨⟩, hy⟩
      exact ⟨ins, rfl, hperm.mem_iff.1 hy⟩
    · rintro ⟨_, ⟨⟩, hy⟩
      exact ⟨_, rfl, hperm.mem_iff.2 hy⟩

theorem CommittedLog.Reorders.reach (h : L.Reorders L') :
    Reach L'.cmds.deps x y ↔ Reach L.cmds.deps x y := by
  have heq : (fun a b => b ∈ L'.cmds.deps a) = fun a b => b ∈ L.cmds.deps a := by
    funext a b
    exact propext h.mem_deps
  rw [Reach, heq]

theorem CommittedLog.Reorders.sameScc (h : L.Reorders L') :
    SameScc L'.cmds.deps x y ↔ SameScc L.cmds.deps x y := and_congr h.reach h.reach

theorem CommittedLog.Reorders.seq (h : L.Reorders L') : L'.cmds.seq x = L.cmds.seq x := by
  rw [Cmds.seq, Cmds.seq]
  rcases h x with ⟨hL, hL'⟩ | ⟨ins, deps, hL, -, hL'⟩
  · rw [hL, hL']
  · rw [hL, hL']
    rfl

/-- A run of `executeCmd` for `root` that applies these commands. -/
structure Execution (L : CommittedLog) (root : InstanceId) where
  log : CommittedLog
  reorders : L.Reorders log
  sort : SortSlice InstanceId
  prepare : ExplicitPrepare
  exe : Executor
  state : State
  cmds : state.cmds = log.cmds
  ins : Instance
  has : log.Has ins
  root : ins.I = root

/-- The commands of one component are applied in the same order in both lists. -/
def AppliedAlike (cmds : Cmds) (l₁ l₂ : List InstanceId) : Prop :=
  ∀ x y, SameScc cmds.deps x y → x ∈ l₁ → y ∈ l₁ → x ∈ l₂ → y ∈ l₂ →
    ([x, y].Sublist l₁ ↔ [x, y].Sublist l₂)

/-- Whatever the order of the dependencies and of equal elements, both runs terminate and apply
the commands that they share alike. -/
def ExecuteAlike (L : CommittedLog) (r₁ r₂ : InstanceId) : Prop :=
  ∀ (e₁ : Execution L r₁) (e₂ : Execution L r₂), ∃ n, ∀ fuel, n ≤ fuel → ∃ l₁ l₂,
    executeCmd e₁.sort e₁.prepare fuel e₁.state e₁.exe e₁.ins = some (e₁.state, true, l₁) ∧
    executeCmd e₂.sort e₂.prepare fuel e₂.state e₂.exe e₂.ins = some (e₂.state, true, l₂) ∧
    AppliedAlike L.cmds (l₁.map Instance.I) (l₂.map Instance.I)

/-- The commands of a component below both roots have different sequence numbers. -/
def DistinctSeqs (L : CommittedLog) (r₁ r₂ : InstanceId) : Prop :=
  ∀ x y, SameScc L.cmds.deps x y → Reach L.cmds.deps r₁ x → Reach L.cmds.deps r₂ x → x ≠ y →
    L.cmds.seq x ≠ L.cmds.seq y

theorem Execution.spec (e : Execution L r₁) : ∃ n, ∀ fuel, n ≤ fuel → ∃ comps l,
    executeCmd e.sort e.prepare fuel e.state e.exe e.ins = some (e.state, true, l) ∧
      Executed e.sort e.log e.ins comps l := executeCmd_spec e.sort e.prepare e.exe e.cmds e.has

theorem Executed.sublist_iff {root : Instance} {comps : List (List InstanceId)}
    {l : List Instance} (h : Executed sort L root comps l) (hxy : SameScc L.cmds.deps x y)
    (hx : x ∈ l.map Instance.I) (hy : y ∈ l.map Instance.I) (hne : L.cmds.seq x ≠ L.cmds.seq y) :
    [x, y].Sublist (l.map Instance.I) ↔ L.cmds.seq x < L.cmds.seq y := by
  constructor
  · intro hsub
    exact UInt64.lt_of_le_of_ne (h.seq_le hxy hsub) hne
  · intro hlt
    rcases sublist_or_swap hx hy (fun heq => hne (heq ▸ rfl)) with hsub | hsub
    · exact hsub
    · exact absurd (h.seq_le hxy.symm hsub) (UInt64.not_le.2 hlt)

/-- Insertion sort of a list with `x` moved to its front. -/
def SortSlice.prefer (x : InstanceId) : SortSlice InstanceId where
  sort less l := (SortSlice.insertion _).sort less (l.filter (· = x) ++ l.filter (· ≠ x))
  perm less l := by
    have hperm := List.filter_append_perm (fun id => decide (id = x)) l
    exact ((SortSlice.insertion _).perm _ _).trans (by simpa using hperm)
  sorted less l h := (SortSlice.insertion _).sorted _ _ h

theorem SortSlice.prefer_sublist {less : InstanceId → InstanceId → Bool} {l : List InstanceId}
    (hx : x ∈ l) (hy : y ∈ l) (hne : y ≠ x) (hw : StrictWeak less) (heq : less y x = false) :
    [x, y].Sublist ((SortSlice.prefer x).sort less l) := by
  have htotal : Std.Total fun a b => less b a = false := ⟨fun a b => hw.total a b⟩
  have htrans : IsTrans InstanceId fun a b => less b a = false :=
    ⟨fun a b c hab hbc => hw.negTrans c b a hbc hab⟩
  have hfront : [x].Sublist (l.filter (· = x)) := by simpa using hx
  have hrest : [y].Sublist (l.filter (· ≠ x)) := by simpa [hne] using hy
  exact List.sublist_insertionSort (by simpa using heq) (hfront.append hrest)

theorem Executed.prefer {root : Instance} {comps : List (List InstanceId)} {l : List Instance}
    (h : Executed (.prefer x) L root comps l) (hxy : SameScc L.cmds.deps x y)
    (hx : x ∈ l.map Instance.I) (hne : x ≠ y) (hseq : L.cmds.seq x = L.cmds.seq y) :
    [y, x].Sublist (l.map Instance.I) := by
  obtain ⟨blocks, hids, hsorted⟩ := h.order
  rw [hids] at hx ⊢
  obtain ⟨B, hB, hxB⟩ := List.mem_flatten.1 (List.mem_reverse.1 hx)
  have hfirst := h.first.perm (hsorted.imp fun _ _ h => h.perm)
  have hyB : y ∈ B := ((hfirst.isScc hB).sameScc hxB).2 hxy
  have hsub : [x, y].Sublist B := by
    have hall := ((List.forall₂_and_left _ _).1 (hsorted.imp fun B C h =>
      show (∃ C, SortedFrom (.prefer x) L.cmds B C) ∧ _ from ⟨⟨C, h⟩, h⟩)).1
    obtain ⟨C, hC⟩ := hall B hB
    have hxC := hC.perm.mem_iff.1 hxB
    have hyC := hC.perm.mem_iff.1 hyB
    obtain ⟨seq, hkey, rfl⟩ := hC
    have hlen : 1 < C.length := by
      match C with
      | [] => cases hxC
      | [id] =>
        rw [List.mem_singleton] at hxC hyC
        exact absurd (hxC.trans hyC.symm) hne
      | _ :: _ :: _ => simp
    rw [sortScc, if_pos hlen]
    apply SortSlice.prefer_sublist hxC hyC hne.symm (.byKey seq)
    rw [decide_eq_false_iff_not, hkey x hxC, hkey y hyC, hseq]
    exact UInt64.lt_irrefl _
  exact (hsub.trans (List.sublist_flatten_of_mem hB)).reverse

/-- A run in which `sort.Slice` puts `x` before equal elements. -/
def Execution.preferring {ins : Instance} (h : L.Has ins) (x : InstanceId) :
    Execution L ins.I where
  log := L
  reorders := .refl L
  sort := .prefer x
  prepare := fun _ _ _ => none
  exe := .empty
  state := { State.empty with cmds := L.cmds }
  cmds := rfl
  ins := ins
  has := h
  root := rfl

/-- The two runs apply the commands that they share alike, in any order of equal elements, if and
only if the sequence numbers leave no choice. -/
theorem execute_alike_iff {i₁ i₂ : Instance} (h₁ : L.Has i₁) (h₂ : L.Has i₂) :
    ExecuteAlike L i₁.I i₂.I ↔ DistinctSeqs L i₁.I i₂.I := by
  constructor
  · intro halike x y hxy hr₁ hr₂ hne hseq
    obtain ⟨n, hn⟩ := halike (.preferring h₁ x) (.preferring h₂ y)
    obtain ⟨n₁, hn₁⟩ := (Execution.preferring h₁ x).spec
    obtain ⟨n₂, hn₂⟩ := (Execution.preferring h₂ y).spec
    obtain ⟨l₁, l₂, hl₁, hl₂, hall⟩ := hn (max n (max n₁ n₂)) (by omega)
    obtain ⟨c₁, l₁', hl₁', hx₁⟩ := hn₁ (max n (max n₁ n₂)) (by omega)
    obtain ⟨c₂, l₂', hl₂', hx₂⟩ := hn₂ (max n (max n₁ n₂)) (by omega)
    cases hl₁.symm.trans hl₁'
    cases hl₂.symm.trans hl₂'
    have hmx₁ := hx₁.mem.2 hr₁
    have hmx₂ := hx₂.mem.2 hr₂
    have hmy₁ := hx₁.mem.2 (hr₁.trans hxy.1)
    have hmy₂ := hx₂.mem.2 (hr₂.trans hxy.1)
    have hsub₁ := hx₁.prefer hxy hmx₁ hne hseq
    have hsub₂ := hx₂.prefer hxy.symm hmy₂ hne.symm hseq.symm
    exact not_sublist_swap hx₁.nodup ((hall x y hxy hmx₁ hmy₁ hmx₂ hmy₂).2 hsub₂) hsub₁
  · intro hdist e₁ e₂
    obtain ⟨n₁, hn₁⟩ := e₁.spec
    obtain ⟨n₂, hn₂⟩ := e₂.spec
    refine ⟨max n₁ n₂, ?_⟩
    intro fuel hfuel
    obtain ⟨c₁, l₁, hl₁, hx₁⟩ := hn₁ fuel ((Nat.le_max_left ..).trans hfuel)
    obtain ⟨c₂, l₂, hl₂, hx₂⟩ := hn₂ fuel ((Nat.le_max_right ..).trans hfuel)
    refine ⟨l₁, l₂, hl₁, hl₂, ?_⟩
    intro x y hxy hmx₁ hmy₁ hmx₂ hmy₂
    by_cases hne : x = y
    · subst hne
      have hno (l : List InstanceId) (hl : l.Nodup) : ¬ [x, x].Sublist l :=
        fun hs => not_sublist_swap hl hs hs
      exact iff_of_false (hno _ hx₁.nodup) (hno _ hx₂.nodup)
    · have hr₁ := e₁.reorders.reach.1 (hx₁.mem.1 hmx₁)
      have hr₂ := e₂.reorders.reach.1 (hx₂.mem.1 hmx₂)
      rw [e₁.root] at hr₁
      rw [e₂.root] at hr₂
      have hseq := hdist x y hxy hr₁ hr₂ hne
      rw [hx₁.sublist_iff (e₁.reorders.sameScc.2 hxy) hmx₁ hmy₁
          (by rwa [e₁.reorders.seq, e₁.reorders.seq]),
        hx₂.sublist_iff (e₂.reorders.sameScc.2 hxy) hmx₂ hmy₂
          (by rwa [e₂.reorders.seq, e₂.reorders.seq])]
      simp only [e₁.reorders.seq, e₂.reorders.seq]

def cycle : CommittedLog :=
  .ofList [write 1 1 [⟨0, 2⟩], write 2 1 [⟨0, 1⟩]] (by decide) (by decide)

def numberedCycle : CommittedLog :=
  .ofList [write 1 1 [⟨0, 2⟩], write 2 2 [⟨0, 1⟩]] (by decide) (by decide)

theorem execute_alike_iff_cycle :
    ExecuteAlike numberedCycle ⟨0, 1⟩ ⟨0, 2⟩ ↔ DistinctSeqs numberedCycle ⟨0, 1⟩ ⟨0, 2⟩ := by
  have h₁ : numberedCycle.Has (write 1 1 [⟨0, 2⟩]) := by decide
  have h₂ : numberedCycle.Has (write 2 2 [⟨0, 1⟩]) := by decide
  exact execute_alike_iff h₁ h₂

/-- The two commands have the same sequence number, and the run from either of them applies the
other one last. -/
theorem execute_differently :
    let run := fun root : Instance => (executeCmd (.insertion _) (fun _ _ _ => none) 10
      { State.empty with cmds := cycle.cmds } .empty root).map fun r =>
        (r.2.1, r.2.2.map Instance.I)
    run (write 1 1 [⟨0, 2⟩]) = some (true, [⟨0, 2⟩, ⟨0, 1⟩]) ∧
      run (write 2 1 [⟨0, 1⟩]) = some (true, [⟨0, 1⟩, ⟨0, 2⟩]) ∧
      SameScc cycle.cmds.deps ⟨0, 1⟩ ⟨0, 2⟩ ∧
      ¬ AppliedAlike cycle.cmds [⟨0, 2⟩, ⟨0, 1⟩] [⟨0, 1⟩, ⟨0, 2⟩] := by
  have hscc : SameScc cycle.cmds.deps ⟨0, 1⟩ ⟨0, 2⟩ := ⟨.edge (by decide), .edge (by decide)⟩
  refine ⟨by decide, by decide, hscc, ?_⟩
  intro h
  exact absurd ((h _ _ hscc (by decide) (by decide) (by decide) (by decide)).2 (by decide))
    (by decide)

end Misc.Epaxos
