import Misc.Lib.Counting
import Misc.Lib.Machine

namespace Misc.Sys.FilePoll
open Misc.Lib
set_option autoImplicit true

inductive Flag
  | r | w
  deriving DecidableEq, Repr

/-- What a goroutine does next in `onFilePoll` (from `readPf` to `call`), `SetPollFunc` and
`PollFlags` (`setPf`, and from `load` to `give`, with the function to call afterwards) or
`Close`. -/
inductive Pc
  | out
  | readPf (rw : Finset Flag)
  | or (rw : Finset Flag) (pf : Option Nat)
  | swap (pf : Option Nat)
  | closed (rw : Finset Flag) (pf : Nat)
  | call (rw : Finset Flag)
  | setPf (pf : Option Nat)
  | load (pf : Option Nat)
  | take (pf : Option Nat)
  | give (rw : Finset Flag)
  | close
  | clearPf
  deriving DecidableEq

/-- What has happened to flags: the poller has reported them, they have been handed to a poll
function or to the caller of `PollFlags`, or `onFilePoll` has dropped them. -/
inductive Ev
  | reported (rw : Finset Flag)
  | handed (rw : Finset Flag)
  | dropped (rw : Finset Flag)
  deriving DecidableEq

/-- A file, the goroutines that use it, and what has happened. -/
structure State where
  rw : Finset Flag
  pf : Option Nat
  closed : Bool
  pcs : List Pc
  history : List Ev

namespace State

def goto (s : State) (t : Nat) (pc : Pc) : State := { s with pcs := s.pcs.set t pc }

def log (s : State) (e : Ev) : State := { s with history := s.history ++ [e] }

/-- The next access to memory of the goroutine `t`, which stands at `pc`. -/
def run (s : State) (t : Nat) : Pc → Option State
  | .out => none
  | .readPf rw => some (s.goto t (.or rw s.pf))
  | .or rw pf => some (({ s with rw := s.rw ∪ rw }.log (.reported rw)).goto t (.swap pf))
  | .swap pf =>
    some (if s.rw = ∅ then s.goto t .out
      else match pf with
        | none => ({ s with rw := ∅ }.log (.dropped s.rw)).goto t .out
        | some pf => { s with rw := ∅ }.goto t (.closed s.rw pf))
  | .closed rw _ =>
    some (if s.closed then (s.log (.dropped rw)).goto t .out else s.goto t (.call rw))
  | .call rw => some ((s.log (.handed rw)).goto t .out)
  | .setPf pf => some ({ s with pf := pf }.goto t (if pf = none then .out else .load pf))
  | .load pf => some (s.goto t (if s.rw = ∅ then .out else .take pf))
  | .take pf =>
    some ({ s with rw := ∅ }.goto t (if s.rw = ∅ then .out
    else if pf = none then .give s.rw else .call s.rw))
  | .give rw => some ((s.log (.handed rw)).goto t .out)
  | .close =>
    some (if s.closed then s.goto t .out else { s with closed := true }.goto t .clearPf)
  | .clearPf => some ({ s with pf := none }.goto t .out)

end State

inductive Act
  | onFilePoll (t : Nat) (rw : Finset Flag)
  | setPollFunc (t : Nat) (pf : Option Nat)
  | pollFlags (t : Nat)
  | close (t : Nat)
  | run (t : Nat)

def State.enter (s : State) (t : Nat) (pc : Pc) : Option State :=
  if s.pcs[t]? = some .out then some (s.goto t pc) else none

def State.step (s : State) : Act → Option State
  | .onFilePoll t rw => s.enter t (.readPf rw)
  | .setPollFunc t pf => s.enter t (.setPf pf)
  | .pollFlags t => s.enter t (.load none)
  | .close t => s.enter t .close
  | .run t => s.pcs[t]?.bind (s.run t)

/-- An open file, and any number of goroutines. -/
def machine : Machine State Act where
  init s := ∃ n, s = ⟨∅, none, false, List.replicate n .out, []⟩
  step := State.step

/-! ## Accounts -/

/-- The flags that have been reported since they were last handed on or dropped. -/
def owed : List Ev → Finset Flag :=
  List.foldl (fun rw e => match e with
    | .reported fl => rw ∪ fl
    | .handed fl | .dropped fl => rw \ fl) ∅

def Ev.reports (b : Flag) : Ev → Bool
  | .reported rw => b ∈ rw
  | _ => false

def Ev.settles (b : Flag) : Ev → Bool
  | .handed rw | .dropped rw => b ∈ rw
  | _ => false

def Pc.hand : Pc → Finset Flag
  | .closed rw _ | .call rw | .give rw => rw
  | _ => ∅

def Pc.swaps : Pc → Bool
  | .swap _ => true
  | _ => false

/-- The account of the flags. -/
structure Accounted (s : State) : Prop where
  owed : ∀ b ∈ owed s.history, b ∈ s.rw ∨ ∃ pc ∈ s.pcs, b ∈ pc.hand
  taken : s.rw ≠ ∅ → ∃ pc ∈ s.pcs, pc.swaps = true
  count :
    ∀ b, s.history.countP (Ev.settles b) + s.pcs.countP
    (b ∈ ·.hand) + (decide (b ∈ s.rw)).toNat ≤ s.history.countP (Ev.reports b)

section
variable {s s' : State} {t : Nat} {pc pc' : Pc} {b : Flag}

theorem owed_reported (l : List Ev) (rw : Finset Flag) :
    owed (l ++ [.reported rw]) = owed l ∪ rw := List.foldl_concat ..

theorem owed_handed (l : List Ev) (rw : Finset Flag) : owed (l ++ [.handed rw]) = owed l \ rw :=
  List.foldl_concat ..

theorem owed_dropped (l : List Ev) (rw : Finset Flag) :
    owed (l ++ [.dropped rw]) = owed l \ rw := List.foldl_concat ..

theorem mem_set_of_ne (hpc : s.pcs[t]? = some pc) {q : Pc} (hq : q ∈ s.pcs) (hne : q ≠ pc) :
    q ∈ s.pcs.set t pc' := by
  obtain ⟨i, hi⟩ := List.mem_iff_getElem?.1 hq
  refine List.mem_iff_getElem?.2 ⟨i, ?_⟩
  rw [List.getElem?_set_ne, hi]
  rintro rfl
  cases hi.symm.trans hpc
  exact hne rfl

theorem Accounted.move (h : Accounted s) (hpc : s.pcs[t]? = some pc)
    (hpcs : s'.pcs = s.pcs.set t pc')
    (howed : ∀ b ∈ FilePoll.owed s'.history, b ∈ s'.rw ∨ b ∈ pc'.hand ∨
      b ∈ FilePoll.owed s.history ∧ b ∉ s.rw ∧ b ∉ pc.hand)
    (htaken : s'.rw ≠ ∅ → pc'.swaps = true ∨ s.rw ≠ ∅ ∧ pc.swaps = false)
    (hcount : ∀ b, s'.history.countP (Ev.settles b) + (decide (b ∈ pc'.hand)).toNat +
        (decide (b ∈ s'.rw)).toNat + s.history.countP (Ev.reports b) ≤
      s.history.countP (Ev.settles b) + (decide (b ∈ pc.hand)).toNat +
        (decide (b ∈ s.rw)).toNat + s'.history.countP (Ev.reports b)) : Accounted s' := by
  have hlt := (List.getElem?_eq_some_iff.1 hpc).1
  have hself : pc' ∈ s.pcs.set t pc' := List.mem_set hlt pc'
  constructor
  · intro b hb
    rw [hpcs]
    obtain hrw | hhand | ⟨hold, hrw, hhand⟩ := howed b hb
    · exact .inl hrw
    · exact .inr ⟨pc', hself, hhand⟩
    · obtain ⟨q, hq, hbq⟩ := (h.owed b hold).resolve_left hrw
      refine .inr ⟨q, mem_set_of_ne hpc hq ?_, hbq⟩
      rintro rfl
      exact hhand hbq
  · intro hne
    rw [hpcs]
    obtain hswaps | ⟨hrw, hswaps⟩ := htaken hne
    · exact ⟨pc', hself, hswaps⟩
    · obtain ⟨q, hq, hqs⟩ := h.taken hrw
      refine ⟨q, mem_set_of_ne hpc hq ?_, hqs⟩
      rintro rfl
      exact Bool.false_ne_true (hswaps.symm.trans hqs)
  · intro b
    have hexchange : (s.pcs.set t pc').countP (b ∈ ·.hand) + (decide (b ∈ pc.hand)).toNat =
      s.pcs.countP (b ∈ ·.hand) + (decide (b ∈ pc'.hand)).toNat := countP_exchange hpc
    have hold := h.count b
    have hstep := hcount b
    rw [hpcs]
    omega

theorem Accounted.goto (h : Accounted s) (hpc : s.pcs[t]? = some pc)
    (hpcs : s'.pcs = s.pcs.set t pc')
    (hrw : s'.rw = s.rw) (hhistory : s'.history = s.history) (hhand : pc'.hand = pc.hand)
    (hswaps : s.rw ≠ ∅ → pc.swaps = false) : Accounted s' := by
  refine h.move hpc hpcs (fun b hb => ?_) (fun hne =>
    .inr ⟨hrw ▸ hne, hswaps (hrw ▸ hne)⟩) fun b => ?_
  · rw [hrw, hhand]
    rw [hhistory] at hb
    by_cases hbrw : b ∈ s.rw
    · exact .inl hbrw
    · by_cases hbhand : b ∈ pc.hand
      · exact .inr (.inl hbhand)
      · exact .inr (.inr ⟨hb, hbrw, hbhand⟩)
  · rw [hrw, hhand, hhistory]

theorem Accounted.settle (h : Accounted s) (hpc : s.pcs[t]? = some pc) {e : Ev}
    (hpcs : s'.pcs = s.pcs.set t .out)
    (hrw : s'.rw = s.rw) (hhistory : s'.history = s.history ++ [e])
    (he : e = .handed pc.hand ∨ e = .dropped pc.hand)
    (hswaps : pc.swaps = false) : Accounted s' := by
  have howed : FilePoll.owed s'.history = FilePoll.owed s.history \ pc.hand := by
    rw [hhistory]
    obtain rfl | rfl := he
    · exact owed_handed ..
    · exact owed_dropped ..
  have hsettles (b : Flag) : e.settles b = decide (b ∈ pc.hand) := by
    obtain rfl | rfl := he <;> rfl
  have hreports (b : Flag) : e.reports b = false := by
    obtain rfl | rfl := he <;> rfl
  refine h.move hpc hpcs (fun b hb => ?_) (fun hne => .inr ⟨hrw ▸ hne, hswaps⟩) fun b => ?_
  · rw [howed, Finset.mem_sdiff] at hb
    rw [hrw]
    by_cases hbrw : b ∈ s.rw
    · exact .inl hbrw
    · exact .inr (.inr ⟨hb.1, hbrw, hb.2⟩)
  · have hnone : decide (b ∈ Pc.out.hand) = false := decide_eq_false (Finset.notMem_empty b)
    rw [hhistory, hrw, hnone, List.countP_append, List.countP_append, List.countP_singleton,
      List.countP_singleton, hsettles, hreports]
    cases decide (b ∈ pc.hand) <;> simp

theorem Accounted.take (h : Accounted s) (hpc : s.pcs[t]? = some pc)
    (hpcs : s'.pcs = s.pcs.set t pc')
    (hrw : s'.rw = ∅) (hhistory : s'.history = s.history) (hhand : pc'.hand = s.rw)
    (hold : pc.hand = ∅) : Accounted s' := by
  refine h.move hpc hpcs (fun b hb => ?_) (fun hne => absurd hrw hne) fun b => ?_
  · rw [hhistory] at hb
    rw [hhand, hold]
    by_cases hbrw : b ∈ s.rw
    · exact .inr (.inl hbrw)
    · exact .inr (.inr ⟨hb, hbrw, Finset.notMem_empty b⟩)
  · rw [hhistory, hhand, hold, hrw]
    simp only [Finset.notMem_empty, decide_false, Bool.toNat_false]
    omega

theorem Accounted.report (h : Accounted s) {rw : Finset Flag} {pf : Option Nat}
    (hpc : s.pcs[t]? = some (.or rw pf)) :
    Accounted (({ s with rw := s.rw ∪ rw }.log (.reported rw)).goto t (.swap pf)) := by
  refine h.move hpc rfl (fun b hb => ?_) (fun _ => .inl rfl) fun b => ?_
  · have hb : b ∈ FilePoll.owed (s.history ++ [.reported rw]) := hb
    rw [owed_reported, Finset.mem_union] at hb
    change b ∈ s.rw ∪ rw ∨ _
    rw [Finset.mem_union]
    by_cases hbrw : b ∈ s.rw
    · exact .inl (.inl hbrw)
    · exact hb.elim (fun hold => .inr (.inr ⟨hold, hbrw, Finset.notMem_empty b⟩)) fun hnew =>
        .inl (.inr hnew)
  · change (s.history ++ [Ev.reported rw]).countP (Ev.settles b) + 0 +
      (decide (b ∈ s.rw ∪ rw)).toNat + _ ≤
      _ + 0 + _ + (s.history ++ [Ev.reported rw]).countP (Ev.reports b)
    rw [List.countP_append, List.countP_append]
    by_cases hold : b ∈ s.rw <;> by_cases hnew : b ∈ rw <;>
      simp [Ev.settles, Ev.reports, hold, hnew]
    omega

theorem Accounted.run (h : Accounted s) (hpc : s.pcs[t]? = some pc)
    (hs : s.run t pc = some s') : Accounted s' := by
  cases pc with
  | out => cases hs
  | readPf rw =>
    cases hs
    exact h.goto hpc rfl rfl rfl rfl fun _ => rfl
  | or rw pf =>
    cases hs
    exact h.report hpc
  | swap pf =>
    cases hs
    split_ifs with hrw
    · exact h.goto hpc rfl rfl rfl rfl fun hne => absurd hrw hne
    · cases pf with
      | none =>
        -- The flags pass through the hand of the goroutine.
        have htake : Accounted ({ s with rw := ∅ }.goto t (.call s.rw)) :=
          h.take hpc rfl rfl rfl rfl rfl
        have hhand : ({ s with rw := ∅ }.goto t (.call s.rw)).pcs[t]? = some (.call s.rw) :=
          List.getElem?_set_self (List.getElem?_eq_some_iff.1 hpc).1
        exact htake.settle hhand (List.set_set ..).symm rfl rfl (.inr rfl) rfl
      | some pf => exact h.take hpc rfl rfl rfl rfl rfl
  | closed rw pf =>
    cases hs
    split_ifs
    · exact h.settle hpc rfl rfl rfl (.inr rfl) rfl
    · exact h.goto hpc rfl rfl rfl rfl fun _ => rfl
  | call rw =>
    cases hs
    exact h.settle hpc rfl rfl rfl (.inl rfl) rfl
  | setPf pf =>
    cases hs
    refine h.goto hpc rfl rfl rfl ?_ fun _ => rfl
    split_ifs <;> rfl
  | load pf =>
    cases hs
    refine h.goto hpc rfl rfl rfl ?_ fun _ => rfl
    split_ifs <;> rfl
  | take pf =>
    cases hs
    refine h.take hpc rfl rfl rfl ?_ rfl
    split_ifs with hrw
    · exact hrw.symm
    · rfl
    · rfl
  | give rw =>
    cases hs
    exact h.settle hpc rfl rfl rfl (.inl rfl) rfl
  | close =>
    cases hs
    split_ifs
    · exact h.goto hpc rfl rfl rfl rfl fun _ => rfl
    · exact h.goto hpc rfl rfl rfl rfl fun _ => rfl
  | clearPf =>
    cases hs
    exact h.goto hpc rfl rfl rfl rfl fun _ => rfl

theorem Accounted.enter (h : Accounted s) (hhand : pc.hand = ∅) (hs : s.enter t pc = some s') :
    Accounted s' := by
  obtain ⟨hpc, hs⟩ := Option.ite_none_right_eq_some.1 hs
  cases hs
  exact h.goto hpc rfl rfl rfl hhand fun _ => rfl

theorem Accounted.step {a : Act} (h : Accounted s) (hs : s.step a = some s') : Accounted s' := by
  cases a with
  | onFilePoll t rw => exact h.enter rfl hs
  | setPollFunc t pf => exact h.enter rfl hs
  | pollFlags t => exact h.enter rfl hs
  | close t => exact h.enter rfl hs
  | run t =>
    obtain ⟨pc, hpc, hs⟩ := Option.bind_eq_some_iff.1 hs
    exact h.run hpc hs

theorem accounted_of_reach (h : machine.Reach s) : Accounted s := by
  refine h.invariant (fun s hs => ?_) fun s a s' hi _ hst => hi.step hst
  obtain ⟨n, rfl⟩ := hs
  refine ⟨fun b hb => (Finset.notMem_empty b hb).elim, fun hne => absurd rfl hne, fun b => ?_⟩
  simp [List.countP_replicate, Pc.hand]

theorem Accounted.settled (h : Accounted s) (hout : ∀ pc ∈ s.pcs, pc = .out) :
    FilePoll.owed s.history = ∅ ∧ s.rw = ∅ := by
  have hempty : s.rw = ∅ := by
    by_contra hne
    obtain ⟨pc, hpc, hswaps⟩ := h.taken hne
    rw [hout pc hpc] at hswaps
    cases hswaps
  refine ⟨Finset.eq_empty_iff_forall_notMem.2 fun b hb => ?_, hempty⟩
  obtain hmem | ⟨pc, hpc, hmem⟩ := h.owed b hb
  · exact Finset.notMem_empty b (hempty ▸ hmem)
  · rw [hout pc hpc] at hmem
    exact Finset.notMem_empty b hmem

/-- A report of a flag is passed on at most once, and until it has been passed on or dropped the
flag is in `rw` or in the hand of a goroutine. It is in `rw` only until the `onFilePoll` that
has put it there goes on: when no goroutine is in a call nothing is left to be passed on, and
nothing for a poll function that is set later. -/
theorem flags_settled (h : machine.Reach s) :
    (∀ b, s.history.countP (Ev.settles b) ≤ s.history.countP (Ev.reports b)) ∧
      (∀ b ∈ owed s.history, b ∈ s.rw ∨ ∃ pc ∈ s.pcs, b ∈ pc.hand) ∧
      ((∀ pc ∈ s.pcs, pc.swaps = false) → s.rw = ∅) ∧
      ((∀ pc ∈ s.pcs, pc = .out) → owed s.history = ∅ ∧ s.rw = ∅) := by
  have hacc := accounted_of_reach h
  refine ⟨fun b => ?_, hacc.owed, fun hno => ?_, hacc.settled⟩
  · have hcount := hacc.count b
    omega
  · by_contra hne
    obtain ⟨pc, hpc, hswaps⟩ := hacc.taken hne
    exact Bool.false_ne_true ((hno pc hpc).symm.trans hswaps)

theorem flags_settled_early :
    ∃ s, machine.Reach s ∧ s.history = [.reported {.r}, .dropped {.r}] ∧ s.rw = ∅ := by
  have hexec :
    machine.exec ⟨∅, none, false, [.out], []⟩ [.onFilePoll 0 {.r}, .run 0, .run 0, .run 0] =
    some _ := rfl
  have hreach : machine.Reach _ := .of_exec ⟨1, rfl⟩ hexec
  exact ⟨_, hreach, rfl, ((flags_settled hreach).2.2.2 (by decide)).2⟩

/-! ## Drops -/

/-- The goroutine has not seen a file without a poll function, and does not take the function
away. -/
def Pc.keeps : Pc → Bool
  | .or _ none | .swap none | .setPf none | .close | .clearPf => false
  | _ => true

/-- A call that neither takes the poll function away nor closes the file. -/
def Act.keeps : Act → Bool
  | .setPollFunc _ none | .close _ => false
  | _ => true

structure Served (s : State) : Prop where
  pf : s.pf ≠ none
  opened : s.closed = false
  keeps : ∀ pc ∈ s.pcs, pc.keeps = true
  history : ∀ rw, .dropped rw ∉ s.history

theorem Served.goto (h : Served s) (hpf : s'.pf ≠ none) (hopened : s'.closed = false)
    (hpcs : s'.pcs = s.pcs.set t pc') (hkeeps : pc'.keeps = true)
    (hhistory : ∀ rw, .dropped rw ∉ s'.history) : Served s' where
  pf := hpf
  opened := hopened
  keeps pc hpc := by
    rw [hpcs] at hpc
    obtain hpc | rfl := List.mem_or_eq_of_mem_set hpc
    · exact h.keeps pc hpc
    · exact hkeeps
  history := hhistory

theorem Served.log (h : Served s) {e : Ev} (he : ∀ rw, .dropped rw ≠ e) :
    ∀ rw, .dropped rw ∉ s.history ++ [e] := by
  intro rw hmem
  obtain hmem | hmem := List.mem_append.1 hmem
  · exact h.history rw hmem
  · exact he rw (List.mem_singleton.1 hmem)

theorem Served.run (h : Served s) (hpc : s.pcs[t]? = some pc) (hs : s.run t pc = some s') :
    Served s' := by
  have hkeeps := h.keeps pc (List.mem_of_getElem? hpc)
  obtain ⟨pf₀, hpf⟩ := Option.ne_none_iff_exists'.1 h.pf
  cases pc with
  | out => cases hs
  | readPf rw =>
    cases hs
    exact h.goto h.pf h.opened rfl (by rw [hpf]; rfl) h.history
  | or rw pf =>
    cases hs
    cases pf with
    | none => exact (Bool.false_ne_true hkeeps).elim
    | some pf => exact h.goto h.pf h.opened rfl rfl (h.log (by simp))
  | swap pf =>
    cases hs
    cases pf with
    | none => exact (Bool.false_ne_true hkeeps).elim
    | some pf =>
      split_ifs
      · exact h.goto h.pf h.opened rfl rfl h.history
      · exact h.goto h.pf h.opened rfl rfl h.history
  | closed rw pf =>
    cases hs
    rw [h.opened]
    exact h.goto h.pf h.opened rfl rfl h.history
  | call rw =>
    cases hs
    exact h.goto h.pf h.opened rfl rfl (h.log (by simp))
  | setPf pf =>
    cases hs
    cases pf with
    | none => exact (Bool.false_ne_true hkeeps).elim
    | some pf => exact h.goto (Option.some_ne_none pf) h.opened rfl rfl h.history
  | load pf =>
    cases hs
    refine h.goto h.pf h.opened rfl ?_ h.history
    split_ifs <;> rfl
  | take pf =>
    cases hs
    refine h.goto h.pf h.opened rfl ?_ h.history
    split_ifs <;> rfl
  | give rw =>
    cases hs
    exact h.goto h.pf h.opened rfl rfl (h.log (by simp))
  | close => exact (Bool.false_ne_true hkeeps).elim
  | clearPf => exact (Bool.false_ne_true hkeeps).elim

theorem Served.enter (h : Served s) (hkeeps : pc.keeps = true) (hs : s.enter t pc = some s') :
    Served s' := by
  obtain ⟨-, hs⟩ := Option.ite_none_right_eq_some.1 hs
  cases hs
  exact h.goto h.pf h.opened rfl hkeeps h.history

theorem Served.step {a : Act} (h : Served s) (ha : a.keeps = true) (hs : s.step a = some s') :
    Served s' := by
  cases a with
  | onFilePoll t rw => exact h.enter rfl hs
  | setPollFunc t pf =>
    cases pf with
    | none => exact (Bool.false_ne_true ha).elim
    | some pf => exact h.enter rfl hs
  | pollFlags t => exact h.enter rfl hs
  | close t => exact (Bool.false_ne_true ha).elim
  | run t =>
    obtain ⟨pc, hpc, hs⟩ := Option.bind_eq_some_iff.1 hs
    exact h.run hpc hs

/-- Where the poll function is set before anything is reported, and stays, and the file is not
closed, nothing is dropped, and every flag that is reported has been handed on when no goroutine
is in a call. -/
theorem reports_handed {as : List Act} (hreach : machine.Reach s) (hs : Served s)
    (h : machine.RunIf (fun _ a => a.keeps = true) s as s') :
    (∀ rw, .dropped rw ∉ s'.history) ∧ ((∀ pc ∈ s'.pcs, pc = .out) → owed s'.history = ∅) := by
  have hserved : Served s' := h.invariant hs fun _ _ _ hi ha hst => hi.step ha hst
  have hacc : Accounted s' :=
    h.invariant (accounted_of_reach hreach) fun _ _ _ hi _ hst => hi.step hst
  exact ⟨hserved.history, fun hout => (hacc.settled hout).1⟩

theorem reports_handed_one :
    ∃ s s', machine.Reach s ∧ machine.RunIf (fun _ a => a.keeps = true) s
    [.onFilePoll 0 {.r}, .run 0, .run 0, .run 0, .run 0, .run 0] s' ∧
      s'.history = [.reported {.r}, .handed {.r}] ∧ owed s'.history = ∅ := by
  have hexec :
      machine.exec ⟨∅, none, false, [.out], []⟩ [.setPollFunc 0 (some 7), .run 0, .run 0] =
      some ⟨∅, some 7, false, [.out], []⟩ := rfl
  have hreach : machine.Reach _ := .of_exec ⟨1, rfl⟩ hexec
  have hserved : Served ⟨∅, some 7, false, [.out], []⟩ :=
    ⟨by decide, rfl, by decide, fun _ => List.not_mem_nil⟩
  have hrun : machine.execIf (fun _ a => a.keeps = true) ⟨∅, some 7, false, [.out], []⟩
      [.onFilePoll 0 {.r}, .run 0, .run 0, .run 0, .run 0, .run 0] = some _ := rfl
  exact ⟨_, _, hreach, .of_execIf hrun, rfl,
    (reports_handed hreach hserved (.of_execIf hrun)).2 (by decide)⟩

end

end Misc.Sys.FilePoll
