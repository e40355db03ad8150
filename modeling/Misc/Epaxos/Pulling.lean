import Misc.Lib.Machine
import Misc.Epaxos.State

namespace Misc.Epaxos
open Misc.Lib
set_option autoImplicit true

/-- Where a goroutine stands that calls `pullCmd` in a loop: before the critical section of the
call, in its `select`, with a command that it has pulled, or outside after the end of its
context. -/
inductive Puller
  | lock
  | select
  | pulled (id : InstanceId)
  | out
  deriving DecidableEq, Repr

/-- The executor with its channel `sig`, of which the one slot is full or not, and the
goroutines. -/
structure Pulling (ι : Type) where
  exe : Executor
  sig : Bool
  puller : ι → Puller

inductive PullingStep (ι : Type)
  | addCmd (key : List UInt8) (seq : UInt64) (i : InstanceId) (res : Option Nat)
  | popFront (p : ι)
  | receive (p : ι)
  | done (p : ι)
  | again (p : ι)

namespace Pulling

variable {ι : Type} [DecidableEq ι]

def move (s : Pulling ι) (p : ι) (place : Puller) : Pulling ι :=
  { s with puller := Function.update s.puller p place }

/-- `addCmd`, whose send to `sig` does nothing where the slot is full. -/
def addCmd (s : Pulling ι) (key : List UInt8) (seq : UInt64)
    (i : InstanceId) (res : Option Nat) : Pulling ι :=
  let (exe, ok) := s.exe.addCmd key seq i res
  { s with exe, sig := s.sig || ok }

/-- The critical section of `pullCmd`. -/
def popFront (s : Pulling ι) (p : ι) : Pulling ι :=
  match s.exe.q with
  | [] => s.move p .select
  | id :: q => { s with exe := { s.exe with q } }.move p (.pulled id)

/-- A call of `addCmd` is one step, as is each part of `pullCmd`. After a command, or after an
error if it goes on, a goroutine calls `pullCmd` again. -/
def step (s : Pulling ι) : PullingStep ι → Option (Pulling ι)
  | .addCmd key seq i res => some (s.addCmd key seq i res)
  | .popFront p => if s.puller p = .lock then some (s.popFront p) else none
  | .receive p =>
    if s.puller p = .select ∧ s.sig then some ({ s with sig := false }.move p .lock) else none
  | .done p => if s.puller p = .select then some (s.move p .out) else none
  | .again p =>
    match s.puller p with
    | .pulled _ | .out => some (s.move p .lock)
    | .lock | .select => none

/-- A new executor, with goroutines that call `pullCmd` or have not begun to. -/
def machine (ι : Type) [DecidableEq ι] : Machine (Pulling ι) (PullingStep ι) where
  init s := s.exe = .empty ∧ s.sig = false ∧ ∀ p, s.puller p = .lock ∨ s.puller p = .out
  step := step

/-- A command is queued, and nothing will make a goroutine look at the queue. -/
structure Forgotten (s : Pulling ι) : Prop where
  queued : s.exe.q ≠ []
  unsignalled : s.sig = false
  blocked : ∀ p, s.puller p = .select ∨ s.puller p = .out

/-- A command is queued only while there is a token or a goroutine that has taken one. -/
def Attended (s : Pulling ι) : Prop :=
  s.exe.q ≠ [] → s.sig = true ∨ ∃ p, s.puller p ≠ .select ∧ s.puller p ≠ .out

variable {s t : Pulling ι} {p : ι}

theorem puller_move_of_ne {p' : ι} (s : Pulling ι) (place : Puller) (h : p' ≠ p) :
    (s.move p place).puller p' = s.puller p' := Function.update_of_ne h ..

theorem puller_move (s : Pulling ι) (p : ι) (place : Puller) :
    (s.move p place).puller p = place :=
  Function.update_self ..

theorem attended_move (s : Pulling ι) (p : ι) {place : Puller} (hs : place ≠ .select)
    (ho : place ≠ .out) : Attended (s.move p place) := by
  intro _
  refine .inr ⟨p, ?_, ?_⟩
  · rwa [puller_move]
  · rwa [puller_move]

omit [DecidableEq ι] in
theorem Attended.addCmd (h : Attended s) (key : List UInt8) (seq : UInt64) (i : InstanceId)
    (res : Option Nat) : Attended (s.addCmd key seq i res) := by
  by_cases hold : ∃ vm ∈ s.exe.kv key, seq ≤ vm.seq
  · have hadd : s.addCmd key seq i res = s := by
      rw [Pulling.addCmd, Executor.addCmd.eq_def, if_pos hold]
      dsimp only
      rw [Bool.or_false]
    rwa [hadd]
  · intro _
    left
    rw [Pulling.addCmd, Executor.addCmd.eq_def, if_neg hold]
    exact Bool.or_true _

theorem attended_popFront (s : Pulling ι) (p : ι) : Attended (s.popFront p) := by
  rw [popFront]
  split
  · next hq => exact fun hne => absurd hq hne
  · exact attended_move _ p nofun nofun

theorem Attended.done (h : Attended s) (hp : s.puller p = .select) :
    Attended (s.move p .out) := by
  intro hq
  apply (h hq).imp_right
  rintro ⟨p', hs, ho⟩
  have hne : p' ≠ p := by
    rintro rfl
    exact hs hp
  exact ⟨p', by rwa [puller_move_of_ne _ _ hne], by rwa [puller_move_of_ne _ _ hne]⟩

theorem Attended.step {a : PullingStep ι} (h : Attended s) (hs : s.step a = some t) :
    Attended t := by
  cases a with
  | addCmd key seq i res =>
    cases hs
    exact h.addCmd key seq i res
  | popFront p =>
    obtain ⟨-, ⟨⟩⟩ := Option.ite_none_right_eq_some.1 hs
    exact attended_popFront s p
  | receive p =>
    obtain ⟨-, ⟨⟩⟩ := Option.ite_none_right_eq_some.1 hs
    exact attended_move _ p nofun nofun
  | done p =>
    obtain ⟨hp, ⟨⟩⟩ := Option.ite_none_right_eq_some.1 hs
    exact h.done hp
  | again p =>
    rw [Pulling.step] at hs
    split at hs <;> cases hs
    all_goals exact attended_move _ p nofun nofun

theorem attended (h : (machine ι).Reach s) : Attended s := by
  refine h.invariant ?_ ?_
  · rintro s ⟨hexe, -, -⟩ hq
    rw [hexe] at hq
    exact absurd rfl hq
  · intro s a t hs _ hst
    exact hs.step hst

/-- In no state that is reached, by any number of goroutines, a queued command is forgotten. -/
theorem not_forgotten (h : (machine ι).Reach s) : ¬ Forgotten s := by
  rintro ⟨hq, hsig, hblocked⟩
  rcases attended h hq with htrue | ⟨p, hs, ho⟩
  · exact Bool.false_ne_true (hsig.symm.trans htrue)
  · exact (hblocked p).elim hs ho

def beginning : Pulling Nat := ⟨.empty, false, fun _ => .lock⟩

/-- Two goroutines wait, two commands share one token, and one goroutine pulls the first. -/
def sharing : List (PullingStep Nat) :=
  [.popFront 0, .popFront 1, .addCmd [1] 1 ⟨0, 1⟩ none, .addCmd [2] 1 ⟨0, 2⟩ none, .receive 0,
    .popFront 0]

theorem not_forgotten_sharing : ∃ s, (machine Nat).exec beginning sharing = some s ∧
    s.exe.q = [⟨0, 2⟩] ∧ s.sig = false ∧ ¬ Forgotten s :=
  ⟨_, rfl, rfl, rfl,
    not_forgotten ⟨beginning, sharing, ⟨rfl, rfl, fun _ => .inl rfl⟩, .of_exec rfl⟩⟩

end Pulling

end Misc.Epaxos
