import Misc.Lib.Rounds
import Misc.Stdmv.Copying

namespace Misc.Stdmv
open Misc.Lib
set_option autoImplicit true

/-- What the loop of `main` keeps, with the packages in the order in which they were moved and
what has been written. -/
structure State where
  depInternals : Finset (List UInt8)
  movedDeps : Finset (List UInt8)
  moved : List (List UInt8)
  written : List Write

def State.pending (s : State) : Finset (List UInt8) := s.depInternals \ s.movedDeps

def State.rounds (s : State) : Graph.Rounds (List UInt8) :=
  ⟨s.depInternals, s.movedDeps, s.moved⟩

/-- `main` has come to its end. -/
def State.Ended (syncInternal : Bool) (s : State) : Prop :=
  syncInternal = true → s.depInternals = ∅

namespace Env

variable (env : Env)

def move (s : State) (pkgPath : List UInt8) : Option State :=
  (env.copyDep pkgPath).map fun ws =>
    { depInternals := s.depInternals ∪ (ws.flatMap Write.deps).toFinset
      movedDeps := insert pkgPath s.movedDeps
      moved := s.moved ++ [pkgPath]
      written := s.written ++ ws }

/-- A turn of the outer loop, with the order in which the map was gone through. -/
def syncRound (s : State) (pending : List (List UInt8)) : Option State :=
  if s.depInternals ≠ ∅ ∧ pending.Nodup ∧ pending.toFinset = s.pending then
    pending.foldlM env.move { s with depInternals := ∅ }
  else none

/-- `main` behind the first copy, with what it has written and the packages of the option
`deps`; only the option `internal` makes it go into the loop. -/
def sync (syncInternal : Bool) (first : List Write) (userDeps : List (List UInt8)) :
    Machine State (List (List UInt8)) where
  init s := s = ⟨(userDeps ++ first.flatMap Write.deps).toFinset, ∅, [], first⟩
  step s pending := if syncInternal then env.syncRound s pending else none

/-- The packages that the files of a package add to `depInternals`. -/
def deps (pkgPath : List UInt8) : List (List UInt8) :=
  ((env.copyDep pkgPath).getD []).flatMap Write.deps

end Env

variable {env : Env} {s t : State} {first : List Write} {userDeps l : List (List UInt8)}
  {orders : List (List (List UInt8))} {p q : List UInt8} {ws : List Write}
  {w : Write} {syncInternal : Bool}

theorem move_eq (h : env.move s p = some t) : ∃ ws, env.copyDep p = some ws ∧
    t = ⟨s.depInternals ∪ (ws.flatMap Write.deps).toFinset, insert p s.movedDeps,
      s.moved ++ [p], s.written ++ ws⟩ := by
  obtain ⟨ws, hws, rfl⟩ := Option.map_eq_some_iff.1 h
  exact ⟨ws, hws, rfl⟩

theorem moves_eq (h : l.foldlM env.move s = some t) :
    t.depInternals = s.depInternals ∪ (l.flatMap env.deps).toFinset ∧
      t.movedDeps = s.movedDeps ∪ l.toFinset ∧ t.moved = s.moved ++ l := by
  induction l generalizing s with
  | nil =>
    cases h
    simp
  | cons p l ih =>
    obtain ⟨u, hu, h⟩ := Option.bind_eq_some_iff.1 h
    obtain ⟨ws, hws, rfl⟩ := move_eq hu
    obtain ⟨hdeps, hdone, hmoved⟩ := ih h
    have hp : env.deps p = ws.flatMap Write.deps := by rw [Env.deps, hws, Option.getD_some]
    refine ⟨?_, ?_, ?_⟩
    · rw [hdeps, List.flatMap_cons, List.toFinset_append, hp, Finset.union_assoc]
    · rw [hdone, List.toFinset_cons, Finset.insert_union, Finset.union_insert]
    · rw [hmoved, List.append_assoc, List.singleton_append]

theorem exists_moves (h : ∀ p ∈ l, env.copyDep p ≠ none) :
    ∃ t, l.foldlM env.move s = some t := by
  induction l generalizing s with
  | nil => exact ⟨s, rfl⟩
  | cons p l ih =>
    obtain ⟨hp, hl⟩ := List.forall_mem_cons.1 h
    obtain ⟨ws, hws⟩ := Option.ne_none_iff_exists'.1 hp
    rw [List.foldlM_cons, Env.move, hws]
    exact ih hl

/-- The loop of `main` is a search in rounds. -/
theorem syncRound_rounds (h : env.syncRound s l = some t) :
    s.rounds.step env.deps l = some t.rounds := by
  rw [Env.syncRound] at h
  split_ifs at h with hg
  obtain ⟨hdeps, hdone, hmoved⟩ := moves_eq h
  rw [Graph.Rounds.step]
  refine (if_pos hg).trans (congrArg some ?_)
  change _ = (⟨t.depInternals, t.movedDeps, t.moved⟩ : Graph.Rounds (List UInt8))
  rw [hdeps, hdone, hmoved, Finset.empty_union]
  rfl

theorem sync_step (h : (env.sync syncInternal first userDeps).step s l = some t) :
    syncInternal = true ∧ env.syncRound s l = some t := by
  change (if syncInternal then env.syncRound s l else none) = some t at h
  split_ifs at h with hsync
  exact ⟨hsync, h⟩

theorem sync_rounds (h : (env.sync syncInternal first userDeps).Run s orders t)
    (roots : Finset (List UInt8)) :
    (Graph.rounds env.deps roots).Run s.rounds orders t.rounds := by
  induction h with
  | nil s => exact .nil _
  | cons ha hst _ ih => exact .cons ha (syncRound_rounds (sync_step hst).2) ih

/-- What has been written belongs to packages that have been moved, and each of these has been
copied. -/
structure Kept (env : Env) (first : List Write) (s : State) : Prop where
  copied : ∀ p ∈ s.moved, ∃ ws, env.copyDep p = some ws ∧ ∀ w ∈ ws, w ∈ s.written
  origin : ∀ w ∈ s.written, w ∈ first ∨ ∃ p ∈ s.moved, ∃ ws, env.copyDep p = some ws ∧ w ∈ ws

theorem Kept.move (h : Kept env first s) (hm : env.move s p = some t) : Kept env first t := by
  obtain ⟨ws, hws, rfl⟩ := move_eq hm
  constructor
  · intro q hq
    obtain hq | hq := List.mem_append.1 hq
    · obtain ⟨us, hus, hall⟩ := h.copied q hq
      exact ⟨us, hus, fun w hw => List.mem_append_left _ (hall w hw)⟩
    · rw [List.mem_singleton.1 hq]
      exact ⟨ws, hws, fun w hw => List.mem_append_right _ hw⟩
  · intro w hw
    obtain hw | hw := List.mem_append.1 hw
    · obtain hw | ⟨q, hq, hrest⟩ := h.origin w hw
      · exact .inl hw
      · exact .inr ⟨q, List.mem_append_left _ hq, hrest⟩
    · exact .inr ⟨p, List.mem_append_right _ (.head _), ws, hws, hw⟩

theorem Kept.moves (h : Kept env first s) (hl : l.foldlM env.move s = some t) :
    Kept env first t := by
  induction l generalizing s with
  | nil =>
    cases hl
    exact h
  | cons p l ih =>
    obtain ⟨u, hu, hl⟩ := Option.bind_eq_some_iff.1 hl
    exact ih (h.move hu) hl

theorem Kept.of_run (h : (env.sync syncInternal first userDeps).Run s orders t)
    (hs : Kept env first s) : Kept env first t := by
  apply h.invariant hs
  intro s l t hk _ hst
  have hst : env.syncRound s l = some t := (sync_step hst).2
  rw [Env.syncRound] at hst
  split_ifs at hst with hg
  exact Kept.moves (s := { s with depInternals := ∅ }) ⟨hk.copied, hk.origin⟩ hst

/-! ## Files -/

theorem reached (hs : (env.sync syncInternal first userDeps).init s)
    (h : (env.sync syncInternal first userDeps).Run s orders t) :
    Graph.Rounds.Searched env.deps (userDeps ++ first.flatMap Write.deps).toFinset t.rounds := by
  cases hs
  exact (Graph.Rounds.Searched.start _ _).of_run (sync_rounds h _)

/-- The package `internal/a` imports `internal/b`, which imports it. -/
def exampleEnv : Env where
  ctx := ⟨bytes "linux", bytes "amd64", 20, fun _ => false⟩
  roots := exampleRoots
  stdDir := bytes "s"
  srcRoot := bytes "s/c"
  dstRoot := bytes "d"
  pkgName := []
  distArch := (· = bytes "amd64")
  distOS := (· = bytes "linux")
  isDir _ := false
  isRegularFile _ := true
  readDir path := if path = bytes "s/internal/a" then
    some [(bytes "a.go", false), (bytes "a_test.go", false)]
    else if path = bytes "s/internal/b" then
      some [(bytes "b_linux.go", false), (bytes "testdata", true)]
    else none
  readFile := some
  parseFile data :=
    some ⟨bytes "p", 0, [if data = bytes "s/internal/a/a.go" then bytes "\"internal/b\""
    else bytes "\"internal/a\""], []⟩

/-- The loop ends: it has at most one turn more than there are packages to move, and as long as
these can be copied it goes on in any order. -/
theorem sync_ends {A : Finset (List UInt8)} (hs : (env.sync syncInternal first userDeps).init s)
    (h : (env.sync syncInternal first userDeps).Run s orders t)
    (hA : ∀ r ∈ userDeps ++ first.flatMap Write.deps, ∀ p, Graph.Reach env.deps r p →
      p ∈ A ∧ env.copyDep p ≠ none) :
    orders.length ≤ A.card + 1 ∧
      (¬t.Ended syncInternal → ∀ l, l.Nodup → l.toFinset = t.pending →
        ∃ u, (env.sync syncInternal first userDeps).step t l = some u) := by
  have hsearch := reached hs h
  constructor
  · cases hs
    have hle :=
      Graph.Rounds.length_le (sync_rounds h (userDeps ++ first.flatMap Write.deps).toFinset)
      (Graph.Rounds.Searched.start _ _) (A := A) fun p ⟨r, hr, hrp⟩ =>
        (hA r (List.mem_toFinset.1 hr) p hrp).1
    exact hle
  · intro hgo l hl hpending
    obtain ⟨hsync, hne⟩ := Classical.not_imp.1 hgo
    obtain ⟨u, hu⟩ := exists_moves (s := { t with depInternals := ∅ }) (l := l) fun p hp => by
      rw [← List.mem_toFinset, hpending, State.pending, Finset.mem_sdiff] at hp
      obtain ⟨r, hr, hrp⟩ := hsearch.reach p (.inl hp.1)
      exact (hA r (List.mem_toFinset.1 hr) p hrp).2
    exact ⟨u, (if_pos hsync).trans ((if_pos ⟨hne, hl, hpending⟩).trans hu)⟩

theorem sync_ends_cycle : ∃ t, (exampleEnv.sync true [] [bytes "internal/a"]).Run
    ⟨([bytes "internal/a"] ++ ([] : List Write).flatMap Write.deps).toFinset, ∅, [], []⟩
      [[bytes "internal/a"]] t ∧
      1 ≤ ({bytes "internal/a", bytes "internal/b"} : Finset (List UInt8)).card + 1 ∧
      ∃ u, (exampleEnv.sync true [] [bytes "internal/a"]).step t
      [bytes "internal/b"] = some u := by
  obtain ⟨A, hA⟩ : ∃ A : Finset (List UInt8), A = {bytes "internal/a", bytes "internal/b"} :=
    ⟨_, rfl⟩
  have hclosed : ∀ p ∈ A, (∀ q ∈ exampleEnv.deps p, q ∈ A) ∧ exampleEnv.copyDep p ≠ none := by
    rw [hA]
    decide +kernel
  have hroot : ∀ r ∈ [bytes "internal/a"] ++ ([] : List Write).flatMap Write.deps, r ∈ A := by
    rw [hA]
    decide +kernel
  have hend : ((exampleEnv.sync true [] [bytes "internal/a"]).exec
      ⟨([bytes "internal/a"] ++ ([] : List Write).flatMap Write.deps).toFinset, ∅, [], []⟩
        [[bytes "internal/a"]]).map
        (fun t => decide (t.depInternals ≠ ∅ ∧ ([bytes "internal/b"]).toFinset = t.pending)) =
          some true := by
    decide +kernel
  obtain ⟨t, ht, hend⟩ := Option.map_eq_some_iff.1 hend
  obtain ⟨hne, hpending⟩ := of_decide_eq_true hend
  have hrun := Machine.RunIf.of_exec ht
  have hreach : ∀ r ∈ [bytes "internal/a"] ++ ([] : List Write).flatMap Write.deps, ∀ p,
      Graph.Reach exampleEnv.deps r p → p ∈ A ∧ exampleEnv.copyDep p ≠ none := by
    intro r hr p hrp
    have hp : p ∈ A := by
      induction hrp with
      | refl => exact hroot r hr
      | tail _ hq ih => exact (hclosed _ ih).1 _ hq
    exact ⟨hp, (hclosed p hp).2⟩
  obtain ⟨hle, hnext⟩ := sync_ends rfl hrun hreach
  exact ⟨t, hrun, hA ▸ hle,
    hnext (fun hend => hne (hend rfl)) _ (List.nodup_singleton _) hpending⟩

end Misc.Stdmv
