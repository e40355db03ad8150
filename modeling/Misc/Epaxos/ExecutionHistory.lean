import Misc.Lib.Preorder
import Misc.Epaxos.ExecutionOrder

namespace Misc.Epaxos
open Misc.Lib.Graph
set_option autoImplicit true

theorem foldlM_mono {α β : Type} {f g : β → α → Option β}
    (h : ∀ b a b', f b a = some b' → g b a = some b')
    {l : List α} {b b' : β} (hf : l.foldlM f b = some b') : l.foldlM g b = some b' := by
  induction l generalizing b with
  | nil => exact hf
  | cons a l ih =>
    rw [List.foldlM_cons] at hf ⊢
    obtain ⟨b₁, hb₁, hf⟩ := Option.bind_eq_some_iff.1 hf
    exact Option.bind_eq_some_iff.2 ⟨b₁, h b a b₁ hb₁, ih hf⟩

section
variable {prepare : ExplicitPrepare} {lastSeq : UInt64}
  {sort : SortSlice InstanceId} {cmds : Cmds}
  {fuel n : Nat}

theorem recoveryDeps_mono (hle : fuel ≤ n) {s : State} {q : List Instance} {r : State × Bool}
    (h : recoveryDeps prepare lastSeq fuel s q = some r) :
    recoveryDeps prepare lastSeq n s q = some r := by
  induction fuel generalizing n s q with
  | zero => cases h
  | succ fuel ih =>
    obtain ⟨n, rfl⟩ : ∃ m, n = m + 1 := ⟨n - 1, by omega⟩
    have hle := Nat.le_of_succ_le_succ hle
    cases q with
    | nil => exact h
    | cons ins q =>
      rw [recoveryDeps] at h ⊢
      split_ifs at h ⊢ with hseq
      · exact ih hle h
      · obtain ⟨⟨s₁, r₁⟩, hscan, h⟩ := Option.bind_eq_some_iff.1 h
        rw [hscan, Option.bind_some]
        cases r₁ with
        | none => exact h
        | some q₁ => exact ih hle h

theorem collectCmds_mono (hle : fuel ≤ n) {ctx ctx' : EaContext} {root : Instance}
    (h : ctx.collectCmds cmds fuel root = some ctx') :
    ctx.collectCmds cmds n root = some ctx' := by
  induction fuel generalizing n ctx ctx' root with
  | zero => cases h
  | succ fuel ih =>
    obtain ⟨n, rfl⟩ : ∃ m, n = m + 1 := ⟨n - 1, by omega⟩
    rw [EaContext.collectCmds] at h ⊢
    refine foldlM_mono ?_ h
    intro ctx p ctx' hdep
    cases p with
    | none => cases hdep
    | some dep =>
      rw [EaContext.collectDep] at hdep ⊢
      obtain ⟨ctx₁, h₁, rfl⟩ := Option.map_eq_some_iff.1 hdep
      refine Option.map_eq_some_iff.2 ⟨ctx₁, ?_, rfl⟩
      split_ifs at h₁ ⊢
      · exact h₁
      · obtain ⟨d, hd, h₁⟩ := Option.bind_eq_some_iff.1 h₁
        exact Option.bind_eq_some_iff.2 ⟨d, hd, ih (Nat.le_of_succ_le_succ hle) h₁⟩

theorem resolveScc_mono (hle : fuel ≤ n) {ctx ctx' : EaContext} {cmd : InstanceId}
    (h : ctx.resolveScc sort fuel cmd = some ctx') : ctx.resolveScc sort n cmd = some ctx' := by
  induction fuel generalizing n ctx ctx' cmd with
  | zero => cases h
  | succ fuel ih =>
    obtain ⟨n, rfl⟩ : ∃ m, n = m + 1 := ⟨n - 1, by omega⟩
    rw [EaContext.resolveScc] at h ⊢
    obtain ⟨c, hc, h⟩ := Option.bind_eq_some_iff.1 h
    obtain ⟨ctx₁, hfold, h⟩ := Option.bind_eq_some_iff.1 h
    refine Option.bind_eq_some_iff.2 ⟨c, hc,
      Option.bind_eq_some_iff.2 ⟨ctx₁, foldlM_mono ?_ hfold, h⟩⟩
    intro ctx dep ctx' hdep
    rw [EaContext.resolveDep] at hdep ⊢
    obtain ⟨d, hd, hdep⟩ := Option.bind_eq_some_iff.1 hdep
    refine Option.bind_eq_some_iff.2 ⟨d, hd, ?_⟩
    split_ifs at hdep ⊢
    · obtain ⟨ctx₂, hcall, hdep⟩ := Option.bind_eq_some_iff.1 hdep
      exact Option.bind_eq_some_iff.2 ⟨ctx₂, ih (Nat.le_of_succ_le_succ hle) hcall, hdep⟩
    · exact hdep
    · exact hdep

/-- A result does not depend on the depth of the recursion that is allowed. -/
theorem executeCmd_mono (hle : fuel ≤ n) {s : State} {e : Executor} {root : Instance}
    {r : State × Bool × List Instance} (h : executeCmd sort prepare fuel s e root = some r) :
    executeCmd sort prepare n s e root = some r := by
  rw [executeCmd] at h ⊢
  obtain ⟨⟨s₁, ok⟩, hdeps, h⟩ := Option.bind_eq_some_iff.1 h
  refine Option.bind_eq_some_iff.2 ⟨⟨s₁, ok⟩, recoveryDeps_mono hle hdeps, ?_⟩
  dsimp only at h ⊢
  split_ifs at h ⊢
  · obtain ⟨ctx, hctx, h⟩ := Option.map_eq_some_iff.1 h
    obtain ⟨ctx₁, hcollect, hresolve⟩ := Option.bind_eq_some_iff.1 hctx
    refine Option.map_eq_some_iff.2 ⟨ctx, ?_, h⟩
    exact Option.bind_eq_some_iff.2 ⟨ctx₁, collectCmds_mono hle hcollect,
      resolveScc_mono hle hresolve⟩
  · exact h

end

/-- The executor after the commands of a list, the first of them first. -/
def Executor.applyAll (e : Executor) (l : List Instance) : Executor :=
  l.foldl (fun e a => (e.applyCmd a).1) e

def Once (l : List Instance) : Prop := ((l.filter fun a => a.Y.Op = .w).map Instance.I).Nodup

/-- No value is replaced by one with a smaller sequence number. -/
def Newer (e e' : Executor) : Prop :=
  ∀ key vm, e.kv key = some vm → ∃ vm', e'.kv key = some vm' ∧ vm.seq ≤ vm'.seq

def Forward : Executor → List Instance → Prop
  | _, [] => True
  | e, a :: l => Newer e (e.applyCmd a).1 ∧ Forward (e.applyCmd a).1 l

/-- `executeCmd` returns `true` and has given these commands to `applyCmd`. -/
def Applies (sort : SortSlice InstanceId) (prepare : ExplicitPrepare) (s : State) (e : Executor)
    (root : Instance) (applied : List Instance) : Prop :=
  ∃ n, ∀ fuel, n ≤ fuel → executeCmd sort prepare fuel s e root = some (s, true, applied)

/-- A call of `RunStep`: the executor before it, the commands applied before it, and its
command. -/
structure Moment where
  exe : Executor
  done : List Instance
  root : Instance

/-- A sequence of calls of `RunStep` and `addCmd` from `e₀`, with the calls of `RunStep` and the
commands that have been applied. -/
inductive Run (L : CommittedLog) (sort : SortSlice InstanceId)
    (prepare : ExplicitPrepare) (s : State)
    (e₀ : Executor) : List Moment → Executor → List Instance → Prop
  | start : Run L sort prepare s e₀ [] e₀ []
  | addCmd (ins : Instance) (res : Option Nat) : Run L sort prepare s e₀ ms e done → L.Has ins →
      Run L sort prepare s e₀ ms (e.addCmd ins.Y.Key ins.Seq ins.I res).1 done
  | runStep : Run L sort prepare s e₀ ms e done → e.q = root.I :: q → L.Has root →
      Applies sort prepare s { e with q } root applied →
      Run L sort prepare s e₀ (ms ++ [⟨e, done, root⟩]) ({ e with q }.applyAll applied)
        (done ++ applied)

/-- A committed write below `root`. -/
def WriteBelow (L : CommittedLog) (root w : Instance) : Prop :=
  L.Has w ∧ w.Y.Op = .w ∧ Reach L.cmds.deps root.I w.I

/-- A command of another component comes first if it reaches the other one, or if neither
reaches the other and the search from the root meets it later. -/
def First (L : CommittedLog) (root a b : InstanceId) : Prop :=
  Reach L.cmds.deps a b ∨ ¬ Reach L.cmds.deps b a ∧ MetBefore L.cmds.deps root b a

/-- No write below the root has been applied before or is older than the value of its key, and
of two writes of a key in different components the older one comes first. -/
structure Moment.Ok (L : CommittedLog) (m : Moment) : Prop where
  fresh : ∀ w, WriteBelow L m.root w → w ∉ m.done
  newer : ∀ w, WriteBelow L m.root w → ∀ vm, m.exe.kv w.Y.Key = some vm → vm.seq ≤ w.Seq
  ordered : ∀ a b, WriteBelow L m.root a → WriteBelow L m.root b → a.Y.Key = b.Y.Key →
    ¬ SameScc L.cmds.deps a.I b.I → First L m.root.I a.I b.I → a.Seq ≤ b.Seq

section
variable {e e' : Executor} {a b : Instance} {l l' : List Instance}

theorem applyAll_append (e : Executor) (l l' : List Instance) :
    e.applyAll (l ++ l') = (e.applyAll l).applyAll l' := List.foldl_append

theorem Forward.append : Forward e (l ++ l') ↔ Forward e l ∧ Forward (e.applyAll l) l' := by
  induction l generalizing e with
  | nil => exact ⟨fun h => ⟨trivial, h⟩, fun h => h.2⟩
  | cons a l ih =>
    rw [List.cons_append, Forward, Forward, ih, and_assoc]
    rfl

theorem Once.append (hd : Once l) (hl : Once l') :
    Once (l ++ l') ↔ ∀ a ∈ l, ∀ b ∈ l', a.Y.Op = .w → b.Y.Op = .w → a.I ≠ b.I := by
  rw [Once, List.filter_append, List.map_append, List.nodup_append]
  constructor
  · rintro ⟨-, -, h⟩ a ha b hb hwa hwb
    exact h a.I (List.mem_map_of_mem (List.mem_filter.2 ⟨ha, decide_eq_true hwa⟩)) b.I
      (List.mem_map_of_mem (List.mem_filter.2 ⟨hb, decide_eq_true hwb⟩))
  · intro h
    refine ⟨hd, hl, ?_⟩
    intro i hi j hj
    obtain ⟨a, ha, rfl⟩ := List.mem_map.1 hi
    obtain ⟨b, hb, rfl⟩ := List.mem_map.1 hj
    obtain ⟨ha, hwa⟩ := List.mem_filter.1 ha
    obtain ⟨hb, hwb⟩ := List.mem_filter.1 hb
    exact h a ha b hb (of_decide_eq_true hwa) (of_decide_eq_true hwb)

theorem Once.of_append (h : Once (l ++ l')) : Once l := by
  rw [Once, List.filter_append, List.map_append, List.nodup_append] at h
  exact h.1

theorem applyCmd_kv_write (ha : a.Y.Op = .w) :
    (e.applyCmd a).1.kv = Function.update e.kv a.Y.Key (some ⟨a.Y.Value, a.Seq⟩) := by
  rw [Executor.applyCmd, Executor.written, if_pos ha]

theorem applyCmd_kv_other (ha : a.Y.Op ≠ .w) : (e.applyCmd a).1.kv = e.kv := by
  rw [Executor.applyCmd, Executor.written, if_neg ha]
  exact Function.update_eq_self ..

theorem forward_congr (h : e.kv = e'.kv) : Forward e l ↔ Forward e' l := by
  induction l generalizing e e' with
  | nil => exact Iff.rfl
  | cons a l ih =>
    have ha : (e.applyCmd a).1.kv = (e'.applyCmd a).1.kv := by
      by_cases hw : a.Y.Op = .w
      · rw [applyCmd_kv_write hw, applyCmd_kv_write hw, h]
      · rw [applyCmd_kv_other hw, applyCmd_kv_other hw, h]
    rw [Forward, Forward, ih ha, Newer, Newer, h, ha]

theorem newer_write (ha : a.Y.Op = .w) :
    Newer e (e.applyCmd a).1 ↔ ∀ vm, e.kv a.Y.Key = some vm → vm.seq ≤ a.Seq := by
  rw [Newer, applyCmd_kv_write ha]
  constructor
  · intro h vm hvm
    obtain ⟨vm', hvm', hle⟩ := h a.Y.Key vm hvm
    rw [Function.update_self] at hvm'
    cases hvm'
    exact hle
  · intro h key vm hvm
    by_cases hk : key = a.Y.Key
    · subst hk
      exact ⟨_, Function.update_self .., h vm hvm⟩
    · exact ⟨vm, (Function.update_of_ne hk ..).trans hvm, UInt64.le_refl _⟩

/-- Two writes of one key are applied in the order of their sequence numbers. -/
def InSeq (a b : Instance) : Prop :=
  a.Y.Op = .w → b.Y.Op = .w → a.Y.Key = b.Y.Key → a.Seq ≤ b.Seq

theorem forward_iff : Forward e l ↔
    (∀ w ∈ l, w.Y.Op = .w → ∀ vm, e.kv w.Y.Key = some vm → vm.seq ≤ w.Seq) ∧
      l.Pairwise InSeq := by
  induction l generalizing e with
  | nil => exact ⟨fun _ => ⟨nofun, .nil⟩, fun _ => trivial⟩
  | cons a l ih =>
    rw [Forward, ih, List.pairwise_cons, List.forall_mem_cons]
    by_cases ha : a.Y.Op = .w
    · rw [newer_write ha, applyCmd_kv_write ha]
      constructor
      · rintro ⟨hnew, hrest, hpair⟩
        have hseq : ∀ w ∈ l, InSeq a w := by
          intro w hw _ hww hk
          exact hrest w hw hww _ (by rw [← hk, Function.update_self])
        refine ⟨⟨fun _ => hnew, ?_⟩, hseq, hpair⟩
        intro w hw hww vm hvm
        by_cases hk : a.Y.Key = w.Y.Key
        · exact UInt64.le_trans (hnew vm (hk ▸ hvm)) (hseq w hw ha hww hk)
        · exact hrest w hw hww vm ((Function.update_of_ne (Ne.symm hk) ..).trans hvm)
      · rintro ⟨⟨hnew, hrest⟩, hseq, hpair⟩
        refine ⟨hnew ha, ?_, hpair⟩
        intro w hw hww vm hvm
        by_cases hk : a.Y.Key = w.Y.Key
        · rw [hk, Function.update_self] at hvm
          cases hvm
          exact hseq w hw ha hww hk
        · rw [Function.update_of_ne (Ne.symm hk)] at hvm
          exact hrest w hw hww vm hvm
    · have hnew : Newer e (e.applyCmd a).1 := by
        intro key vm hvm
        exact ⟨vm, by rw [applyCmd_kv_other ha, hvm], UInt64.le_refl _⟩
      rw [applyCmd_kv_other ha]
      constructor
      · rintro ⟨-, hrest, hpair⟩
        exact ⟨⟨fun hw => absurd hw ha, hrest⟩, fun w _ hw => absurd hw ha, hpair⟩
      · rintro ⟨⟨-, hrest⟩, -, hpair⟩
        exact ⟨hnew, hrest, hpair⟩

end

section
variable {L : CommittedLog} {sort : SortSlice InstanceId} {prepare : ExplicitPrepare} {s : State}
  {e e₀ : Executor} {root : Instance} {applied done : List Instance} {ms : List Moment}
  {comps : List (List InstanceId)} {x y : InstanceId}

/-- What the calls of `RunStep` for a command apply, and in which order. -/
structure Order (L : CommittedLog) (root : Instance) (applied : List Instance) : Prop where
  mem : ∀ a, a ∈ applied ↔ L.Has a ∧ Reach L.cmds.deps root.I a.I
  nodup : (applied.map Instance.I).Nodup
  seqs : ∀ a b, [a, b].Sublist applied → SameScc L.cmds.deps a.I b.I → a.Seq ≤ b.Seq
  first : ∀ a b, a ∈ applied → b ∈ applied → ¬ SameScc L.cmds.deps a.I b.I →
    ([a, b].Sublist applied ↔ First L root.I a.I b.I)

theorem CommittedLog.Has.eq_of_I {a b : Instance} (ha : L.Has a) (hb : L.Has b) (h : a.I = b.I) :
    a = b := by
  have heq := hb.1
  rw [← h, ha.1] at heq
  exact Option.some.inj heq

theorem Executed.mem_applied (h : Executed sort L root comps applied) (a : Instance) :
    a ∈ applied ↔ L.Has a ∧ Reach L.cmds.deps root.I a.I := by
  constructor
  · intro ha
    exact ⟨h.has a ha, h.mem.1 (List.mem_map_of_mem ha)⟩
  · rintro ⟨ha, hr⟩
    obtain ⟨b, hb, hI⟩ := List.mem_map.1 (h.mem.2 hr)
    cases (h.has b hb).eq_of_I ha hI
    exact hb

theorem Executed.sublist_ids (h : Executed sort L root comps applied) {a b : Instance}
    (ha : a ∈ applied) (hb : b ∈ applied) (hne : a.I ≠ b.I) :
    [a.I, b.I].Sublist (applied.map Instance.I) ↔ [a, b].Sublist applied := by
  constructor
  · intro hsub
    rcases sublist_or_swap ha hb (fun heq => hne (heq ▸ rfl)) with hab | hba
    · exact hab
    · exact (not_sublist_swap h.nodup hsub (hba.map Instance.I)).elim
  · intro hsub
    exact hsub.map Instance.I

theorem Executed.later (h : Executed sort L root comps applied)
    (hsub : [x, y].Sublist (applied.map Instance.I)) (hne : ¬ SameScc L.cmds.deps x y)
    {R : InstanceId → InstanceId → Prop}
    (hR : comps.Pairwise fun A B => ∀ a ∈ A, ∀ b ∈ B, R a b) : R y x := by
  obtain ⟨blocks, hids, hsorted⟩ := h.order
  rw [hids] at hsub
  have hperm := hsorted.imp fun _ _ h => h.perm
  have hfirst := h.first.perm hperm
  have hblocks := pairwise_blocks hperm hR
  have hflat : blocks.flatten.Pairwise fun a b => ¬ SameScc L.cmds.deps a b → R a b := by
    rw [List.pairwise_flatten]
    refine ⟨?_, hblocks.imp fun hAB a ha b hb _ => hAB a ha b hb⟩
    intro B hB
    apply List.pairwise_of_forall_mem_list
    intro a ha b hb hne
    exact absurd (((hfirst.isScc hB).sameScc ha).1 hb) hne
  have hrev := hsub.reverse
  rw [List.reverse_reverse] at hrev
  exact (List.pairwise_pair.1 (hflat.sublist hrev)) fun hs => hne hs.symm

theorem Executed.reach_first (h : Executed sort L root comps applied)
    (hx : Reach L.cmds.deps root.I x) (hr : Reach L.cmds.deps x y)
    (hne : ¬ SameScc L.cmds.deps x y) : [x, y].Sublist (applied.map Instance.I) := by
  have hm := h.mem.2 hx
  obtain ⟨blocks, hids, hsorted⟩ := h.order
  rw [hids] at hm ⊢
  have hfirst := h.first.perm (hsorted.imp fun _ _ h => h.perm)
  exact (hfirst.before_reach (List.mem_reverse.1 hm) hr hne).reverse

/-- On a committed log `executeCmd` applies what is below the root in this order. -/
theorem applies_order (prepare : ExplicitPrepare) (e : Executor) (hs : s.cmds = L.cmds)
    (hroot : L.Has root) (happ : Applies sort prepare s e root applied) :
    Order L root applied := by
  obtain ⟨n₁, hn₁⟩ := happ
  obtain ⟨n₂, hlen, hn₂⟩ := executeCmd_search sort prepare e hs hroot
  have hall (fuel : Nat) (hfuel : max n₁ n₂ ≤ fuel) : ∃ S,
      Search.visit L.cmds.deps fuel root.I .empty = some S ∧
        Executed sort L root S.res applied := by
    obtain ⟨S, applied', hvisit, hexec, h⟩ := hn₂ fuel ((Nat.le_max_right ..).trans hfuel)
    cases (hn₁ fuel ((Nat.le_max_left ..).trans hfuel)).symm.trans hexec
    exact ⟨S, hvisit, h⟩
  obtain ⟨S, -, h⟩ := hall _ (Nat.le_refl _)
  have hmet {x y} (hsub : [x, y].Sublist (applied.map Instance.I))
      (hxy : ¬ Reach L.cmds.deps x y) (fuel : Nat) (hfuel : max n₁ n₂ ≤ fuel) :
      [y, x].Sublist (preorder L.cmds.deps fuel [] root.I) := by
    obtain ⟨S', hvisit, h'⟩ := hall fuel hfuel
    have hord := Search.tarjan_preorder L.closed_committed
      (CommittedLog.mem_committed.2 ⟨root, rfl, hroot⟩)
      (hlen.trans ((Nat.le_max_right ..).trans hfuel)) hvisit
    exact h'.later hsub (fun hs => hxy hs.1) hord hxy
  refine ⟨h.mem_applied, h.nodup, ?_, ?_⟩
  · intro a b hsub hab
    have hle := h.seq_le hab (hsub.map Instance.I)
    have hseq {c : Instance} (hc : c ∈ applied) : L.cmds.seq c.I = c.Seq := by
      rw [Cmds.seq, (h.has c hc).1]
      rfl
    rwa [hseq (hsub.subset (by simp)), hseq (hsub.subset (by simp))] at hle
  · intro a b ha hb hne
    have hneI : a.I ≠ b.I := fun heq => hne (heq ▸ SameScc.refl _)
    have hra := ((h.mem_applied a).1 ha).2
    have hrb := ((h.mem_applied b).1 hb).2
    rw [← h.sublist_ids ha hb hneI]
    constructor
    · intro hsub
      by_cases hab : Reach L.cmds.deps a.I b.I
      · exact .inl hab
      · refine .inr ⟨?_, max n₁ n₂, hmet hsub hab⟩
        intro hba
        exact not_sublist_swap h.nodup hsub (h.reach_first hrb hba fun hs => hne hs.symm)
    · rintro (hab | ⟨hba, n, hn⟩)
      · exact h.reach_first hra hab hne
      · rcases sublist_or_swap (List.mem_map_of_mem ha) (List.mem_map_of_mem hb)
          hneI with hsub | hsub
        · exact hsub
        · have hfuel := Nat.le_max_right n (max n₁ n₂)
          exact (not_sublist_swap (preorder_nodup _ List.nodup_nil root.I)
            (hmet hsub hba _ hfuel) (hn _ (Nat.le_max_left ..))).elim

theorem applies_of_executeCmd {fuel : Nat}
    (h : executeCmd sort prepare fuel s e root = some (s, true, applied)) :
    Applies sort prepare s e root applied := ⟨fuel, fun _ hle => executeCmd_mono hle h⟩

/-- What the run has applied stays once and forward with another call exactly if the call is
good. -/
theorem moment_iff (ho : Order L root applied) (hkv : e.kv = (e₀.applyAll done).kv)
    (hdone : ∀ a ∈ done, L.Has a) :
    Once (done ++ applied) ∧ Forward e₀ (done ++ applied) ↔
      (Once done ∧ Forward e₀ done) ∧ Moment.Ok L ⟨e, done, root⟩ := by
  have hbelow (w : Instance) : WriteBelow L root w ↔ w ∈ applied ∧ w.Y.Op = .w := by
    rw [ho.mem, WriteBelow, and_assoc, and_comm (a := w.Y.Op = .w)]
  have honce : Once applied := ho.nodup.sublist (List.filter_sublist.map _)
  have hpair : applied.Pairwise InSeq ↔ ∀ a b, WriteBelow L root a → WriteBelow L root b →
      a.Y.Key = b.Y.Key → ¬ SameScc L.cmds.deps a.I b.I →
        First L root.I a.I b.I → a.Seq ≤ b.Seq := by
    rw [List.pairwise_iff_forall_sublist]
    constructor
    · intro h a b ha hb hk hne hfirst
      obtain ⟨ha, hwa⟩ := (hbelow a).1 ha
      obtain ⟨hb, hwb⟩ := (hbelow b).1 hb
      exact h ((ho.first a b ha hb hne).2 hfirst) hwa hwb hk
    · intro h a b hsub hwa hwb hk
      have ha : a ∈ applied := hsub.subset (by simp)
      have hb : b ∈ applied := hsub.subset (by simp)
      by_cases hscc : SameScc L.cmds.deps a.I b.I
      · exact ho.seqs a b hsub hscc
      · exact h a b ((hbelow a).2 ⟨ha, hwa⟩) ((hbelow b).2 ⟨hb, hwb⟩) hk hscc
          ((ho.first a b ha hb hscc).1 hsub)
  rw [Forward.append, forward_congr hkv.symm, forward_iff (l := applied), hpair]
  constructor
  · rintro ⟨hon, hdf, hnew, hord⟩
    have hd := hon.of_append
    refine ⟨⟨hd, hdf⟩, ?_, ?_, hord⟩
    · intro w hw hwd
      obtain ⟨ha, hop⟩ := (hbelow w).1 hw
      exact (hd.append honce).1 hon w hwd w ha hop hop rfl
    · intro w hw
      obtain ⟨ha, hop⟩ := (hbelow w).1 hw
      exact hnew w ha hop
  · rintro ⟨⟨hd, hdf⟩, hok⟩
    refine ⟨(hd.append honce).2 ?_, hdf, ?_, hok.ordered⟩
    · intro a ha b hb _ hwb hI
      cases (hdone a ha).eq_of_I ((ho.mem b).1 hb).1 hI
      exact hok.fresh a ((hbelow a).2 ⟨hb, hwb⟩) ha
    · intro w hw hop
      exact hok.newer w ((hbelow w).2 ⟨hw, hop⟩)

theorem addCmd_kv (e : Executor) (key : List UInt8) (seq : UInt64) (i : InstanceId)
    (res : Option Nat) : (e.addCmd key seq i res).1.kv = e.kv := by
  rw [Executor.addCmd.eq_def]
  split_ifs <;> rfl

theorem addCmd_q {key : List UInt8} {seq : UInt64} {i id : InstanceId} {res : Option Nat}
    (h : id ∈ (e.addCmd key seq i res).1.q) : id ∈ e.q ∨ id = i := by
  rw [Executor.addCmd.eq_def] at h
  split_ifs at h
  · exact .inl h
  · rcases List.mem_append.1 h with h | h
    · exact .inl h
    · exact .inr (List.mem_singleton.1 h)

theorem applyAll_q (e : Executor) (l : List Instance) : (e.applyAll l).q = e.q := by
  induction l generalizing e with
  | nil => rfl
  | cons a l ih => exact ih _

theorem applyAll_kv_congr {e e' : Executor} (h : e.kv = e'.kv) (l : List Instance) :
    (e.applyAll l).kv = (e'.applyAll l).kv := by
  induction l generalizing e e' with
  | nil => exact h
  | cons a l ih =>
    apply ih
    by_cases hw : a.Y.Op = .w
    · rw [applyCmd_kv_write hw, applyCmd_kv_write hw, h]
    · rw [applyCmd_kv_other hw, applyCmd_kv_other hw, h]

/-- What holds between two calls. -/
structure Run.Inv (L : CommittedLog) (e₀ e : Executor) (done : List Instance) : Prop where
  kv : e.kv = (e₀.applyAll done).kv
  has : ∀ a ∈ done, L.Has a
  queue : ∀ id ∈ e.q, ∃ ins, ins.I = id ∧ L.Has ins

theorem Run.inv (hs : s.cmds = L.cmds) (hq : ∀ id ∈ e₀.q, ∃ ins, ins.I = id ∧ L.Has ins)
    (h : Run L sort prepare s e₀ ms e done) : Run.Inv L e₀ e done := by
  induction h with
  | start => exact ⟨rfl, nofun, hq⟩
  | addCmd ins res _ hins ih =>
    refine ⟨(addCmd_kv ..).trans ih.kv, ih.has, ?_⟩
    intro id hid
    rcases addCmd_q hid with hid | rfl
    · exact ih.queue id hid
    · exact ⟨ins, rfl, hins⟩
  | runStep _ hpull hroot happ ih =>
    have ho := applies_order prepare _ hs hroot happ
    refine ⟨?_, ?_, ?_⟩
    · rw [applyAll_append]
      refine applyAll_kv_congr ?_ _
      exact ih.kv
    · intro a ha
      rcases List.mem_append.1 ha with ha | ha
      · exact ih.has a ha
      · exact ((ho.mem a).1 ha).1
    · intro id hid
      rw [applyAll_q] at hid
      exact ih.queue id (hpull ▸ List.mem_cons_of_mem _ hid)

/-- In every sequence of calls each call returns, and each write is applied at most once and no
value goes back exactly if every call of `RunStep` was good. -/
theorem executes_forward_iff (hs : s.cmds = L.cmds)
    (hq : ∀ id ∈ e₀.q, ∃ ins, ins.I = id ∧ L.Has ins) (h : Run L sort prepare s e₀ ms e done) :
    (Once done ∧ Forward e₀ done ↔ ∀ m ∈ ms, m.Ok L) ∧
      ∀ id q, e.q = id :: q → ∃ root applied, root.I = id ∧ L.Has root ∧
        Applies sort prepare s { e with q } root applied := by
  constructor
  · induction h with
    | start => exact ⟨fun _ => nofun, fun _ => ⟨List.nodup_nil, trivial⟩⟩
    | addCmd _ _ _ _ ih => exact ih
    | runStep hrun _ hroot happ ih =>
      have hinv := hrun.inv hs hq
      rw [moment_iff (applies_order prepare _ hs hroot happ) hinv.kv hinv.has, ih,
        List.forall_mem_append, List.forall_mem_singleton]
  · intro id q hpull
    obtain ⟨root, hI, hroot⟩ := (h.inv hs hq).queue id (hpull ▸ List.mem_cons_self)
    obtain ⟨n, hn⟩ := executeCmd_spec sort prepare { e with q } hs hroot
    obtain ⟨comps, applied, hexec, -⟩ := hn n (Nat.le_refl n)
    exact ⟨root, applied, hI, hroot, applies_of_executeCmd hexec⟩

def queued (ids : List InstanceId) : Executor := { Executor.empty with q := ids }

def afterFirst : Executor := (queued [⟨0, 2⟩]).applyAll [write 1 1 []]

/-- Both commands of the chain are queued, and then each of them is executed. -/
theorem executes_forward_iff_chain :
    let second := write 2 2 [⟨0, 1⟩]
    let ms : List Moment := [⟨queued [⟨0, 1⟩, ⟨0, 2⟩], [], write 1 1 []⟩,
      ⟨afterFirst, [write 1 1 []], second⟩]
    let done := [write 1 1 [], second, write 1 1 []]
    let e := { afterFirst with q := [] }.applyAll [second, write 1 1 []]
    (Once done ∧ Forward (queued []) done ↔ ∀ m ∈ ms, m.Ok chain) ∧
    ∀ id q, e.q = id :: q → ∃ root applied, root.I = id ∧ chain.Has root ∧
      Applies (.insertion _) (fun _ _ _ => none) { State.empty with cmds := chain.cmds }
        { e with q } root applied := by
  have hfirst :
      Applies (.insertion _) (fun _ _ _ => none) { State.empty with cmds := chain.cmds }
      (queued [⟨0, 2⟩]) (write 1 1 []) [write 1 1 []] :=
        ⟨5, fun _ hle => executeCmd_mono hle rfl⟩
  have hsecond :
      Applies (.insertion _) (fun _ _ _ => none) { State.empty with cmds := chain.cmds }
      { afterFirst with q := [] } (write 2 2 [⟨0, 1⟩]) [write 2 2 [⟨0, 1⟩], write 1 1 []] :=
    ⟨5, fun _ hle => executeCmd_mono hle rfl⟩
  have hqueue : Run chain (.insertion _) (fun _ _ _ => none)
      { State.empty with cmds := chain.cmds } (queued []) [] (queued [⟨0, 1⟩, ⟨0, 2⟩]) [] :=
    .addCmd (write 2 2 [⟨0, 1⟩]) none
      (.addCmd (write 1 1 []) none .start (by decide)) (by decide)
  have hrun := (hqueue.runStep rfl (by decide) hfirst).runStep rfl (by decide) hsecond
  exact executes_forward_iff rfl nofun hrun

/-- The second command is applied before the first one, which takes the value back. -/
theorem executes_backward : ¬ ∀ (L : CommittedLog) (sort : SortSlice InstanceId)
    (prepare : ExplicitPrepare) (s : State) (e₀ e : Executor) (ms : List Moment)
    (done : List Instance), s.cmds = L.cmds → (∀ id ∈ e₀.q, ∃ ins, ins.I = id ∧ L.Has ins) →
      Run L sort prepare s e₀ ms e done → Once done ∧ Forward e₀ done := by
  intro h
  have happ : Applies (.insertion _) (fun _ _ _ => none) { State.empty with cmds := chain.cmds }
      (queued []) (write 2 2 [⟨0, 1⟩]) [write 2 2 [⟨0, 1⟩], write 1 1 []] :=
    ⟨5, fun _ hle => executeCmd_mono hle rfl⟩
  have hrun :
      Run chain (.insertion _) (fun _ _ _ => none) { State.empty with cmds := chain.cmds }
      (queued [⟨0, 2⟩]) [⟨queued [⟨0, 2⟩], [], write 2 2 [⟨0, 1⟩]⟩]
      ((queued []).applyAll [write 2 2 [⟨0, 1⟩], write 1 1 []])
      [write 2 2 [⟨0, 1⟩], write 1 1 []] := .runStep .start rfl (by decide) happ
  have hback := (h chain _ _ _ _ _ _ _ rfl (by
    intro id hid
    exact ⟨write 2 2 [⟨0, 1⟩], (List.mem_singleton.1 hid).symm, by decide⟩) hrun).2
  have hle := (List.pairwise_pair.1 (forward_iff.1 hback).2) rfl rfl rfl
  exact absurd hle (by decide)

end

end Misc.Epaxos
