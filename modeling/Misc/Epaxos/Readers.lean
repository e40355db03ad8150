import Mathlib.Data.List.Induction
import Mathlib.Tactic.ByContra
import Mathlib.Tactic.SplitIfs
import Misc.Epaxos.State

namespace Misc.Epaxos
set_option autoImplicit true

/-- What the code uses of the package `vec`. -/
structure VecOps where
  findBy : (Nat → Bool) → List Nat → Option Nat
  findBy_eq : ∀ p l, findBy p l = l.findIdx? p
  swapRemove : List Nat → Nat → List Nat
  swapRemove_perm : ∀ l pos, pos < l.length → (swapRemove l pos).Perm (l.eraseIdx pos)

theorem perm_setLast (l : List α) (z : α) (pos : Nat) (h : pos < (l ++ [z]).length) :
    ((l ++ [z]).set pos z).dropLast.Perm ((l ++ [z]).eraseIdx pos) := by
  rw [List.length_append, List.length_singleton] at h
  by_cases hpos : pos < l.length
  · rw [List.set_append_left _ _ hpos, List.dropLast_concat,
      List.eraseIdx_append_of_lt_length hpos,
      List.set_eq_take_append_cons_drop, if_pos hpos,
        List.eraseIdx_eq_take_drop_succ, List.append_assoc]
    exact (List.perm_append_singleton z _).symm.append_left _
  · have heq : pos = l.length := by omega
    rw [heq, List.set_append_right _ _ (Nat.le_refl _),
      List.eraseIdx_append_of_length_le (Nat.le_refl _),
      Nat.sub_self, List.set_cons_zero, List.dropLast_concat,
        List.eraseIdx_cons_zero, List.append_nil]

/-- The last element takes the place of the one that is removed. -/
def VecOps.plain : VecOps where
  findBy p l := l.findIdx? p
  findBy_eq _ _ := rfl
  swapRemove l pos := (l.set pos (l.getLastD 0)).dropLast
  swapRemove_perm l pos h := by
    obtain rfl | ⟨l, z, rfl⟩ := l.eq_nil_or_concat
    · cases h
    · rw [List.concat_eq_append] at h ⊢
      rw [List.getLastD_concat]
      exact perm_setLast l z pos h

/-- The channels that wait for the result of an instance. -/
def Executor.readers (e : Executor) (i : InstanceId) : List Nat := (e.read i).getD []

def Executor.removeCmdRes (ops : VecOps) (e : Executor) (i : InstanceId)
    (res : Nat) : Executor :=
  match e.read i with
  | some rs => match ops.findBy (fun ch => ch == res) rs with
    | some pos => { e with read := Function.update e.read i (some (ops.swapRemove rs pos)) }
    | none => e
  | none => e

inductive ExecutorCall
  | addCmd (key : List UInt8) (seq : UInt64) (i : InstanceId) (res : Option Nat)
  | removeCmdRes (i : InstanceId) (res : Nat)
  | applyCmd (ins : Instance)

def Executor.call (ops : VecOps) (e : Executor) : ExecutorCall → Executor
  | .addCmd key seq i res => (e.addCmd key seq i res).1
  | .removeCmdRes i res => e.removeCmdRes ops i res
  | .applyCmd ins => (e.applyCmd ins).1

/-- An executor, and the values that have been sent on channels. -/
structure Served where
  exe : Executor
  sent : List (Nat × List UInt8)

namespace Served

def empty : Served := ⟨.empty, []⟩

/-- The values that a call sends on channels. -/
def sends (s : Served) : ExecutorCall → List (Nat × List UInt8)
  | .applyCmd ins => (s.exe.applyCmd ins).2
  | .addCmd .. | .removeCmdRes .. => []

def call (ops : VecOps) (s : Served) (c : ExecutorCall) : Served :=
  ⟨s.exe.call ops c, s.sent ++ s.sends c⟩

def calls (ops : VecOps) (cs : List ExecutorCall) : Served := cs.foldl (call ops) empty

end Served

/-- The number of values that were sent on a channel. -/
def received (ch : Nat) (sent : List (Nat × List UInt8)) : Nat := sent.countP fun m => m.1 = ch

/-- A channel leaves the table by its removal or with exactly one value. -/
def Served.Answers (ops : VecOps) (s : Served) (c : ExecutorCall) : Prop :=
  ∀ i ch, ch ∈ s.exe.readers i → ch ∉ (s.call ops c).exe.readers i →
    c = .removeCmdRes i ch ∨ ∃ ins, c = .applyCmd ins ∧ ins.I = i ∧ received ch (s.sends c) = 1

/-- No reader is dropped by any of the calls, and no channel gets a second value. -/
structure NoReaderDropped (ops : VecOps) (cs : List ExecutorCall) : Prop where
  answers : ∀ before c after, cs = before ++ c :: after → (Served.calls ops before).Answers ops c
  once : ∀ before after, cs = before ++ after →
    ∀ ch, received ch (Served.calls ops before).sent ≤ 1

/-- An instance whose readers `applyCmd` can answer: there is a value, and each of them waits
for its first. -/
def Served.CanAnswer (s : Served) (ins : Instance) : Prop :=
  s.exe.readers ins.I ≠ [] → (s.exe.written ins).bind ValueMeta.data ≠ none ∧
    (s.exe.readers ins.I).Nodup ∧ ∀ ch ∈ s.exe.readers ins.I, received ch s.sent = 0

section
variable {ops : VecOps} {s : Served} {c : ExecutorCall} {i : InstanceId} {ch : Nat}

theorem received_append (ch : Nat) (a b : List (Nat × List UInt8)) :
    received ch (a ++ b) = received ch a + received ch b := List.countP_append ..

theorem mem_readers_addCmd {key : List UInt8} {seq : UInt64} {j : InstanceId} {res : Option Nat}
    {e : Executor} (h : ch ∈ e.readers i) : ch ∈ (e.addCmd key seq j res).1.readers i := by
  rw [Executor.addCmd.eq_def]
  split_ifs
  · exact h
  · cases res with
    | none => exact h
    | some res =>
      rw [Executor.readers] at h ⊢
      dsimp only
      rw [Function.update_apply]
      split_ifs with hij
      · rw [Option.getD_some, ← hij]
        exact List.mem_append_left _ h
      · exact h

theorem mem_readers_removeCmdRes {j : InstanceId} {res : Nat} {e : Executor}
    (h : ch ∈ e.readers i) (hne : ¬ (i = j ∧ ch = res)) :
    ch ∈ (e.removeCmdRes ops j res).readers i := by
  rw [Executor.removeCmdRes]
  cases hread : e.read j with
  | none => exact h
  | some rs =>
    dsimp only
    cases hpos : ops.findBy (fun ch => ch == res) rs with
    | none => exact h
    | some pos =>
      rw [ops.findBy_eq] at hpos
      obtain ⟨hlt, hres, -⟩ := List.findIdx?_eq_some_iff_getElem.1 hpos
      rw [Executor.readers] at h ⊢
      dsimp only
      rw [Function.update_apply]
      split_ifs with hij
      · subst hij
        rw [hread, Option.getD_some] at h
        rw [Option.getD_some, (ops.swapRemove_perm rs pos hlt).mem_iff,
          List.mem_eraseIdx_iff_getElem]
        obtain ⟨k, hk, rfl⟩ := List.getElem_of_mem h
        refine ⟨k, hk, ?_, rfl⟩
        rintro rfl
        exact hne ⟨rfl, eq_of_beq hres⟩
      · exact h

theorem readers_applyCmd (e : Executor) (ins : Instance) (i : InstanceId) :
    (e.applyCmd ins).1.readers i = if i = ins.I then [] else e.readers i := by
  rw [Executor.readers, Executor.applyCmd, Executor.readers]
  dsimp only
  rw [Function.update_apply]
  split_ifs <;> rfl

theorem received_applyCmd (e : Executor) (ins : Instance) (ch : Nat) :
    received ch (e.applyCmd ins).2 =
      if (e.written ins).bind ValueMeta.data = none then 0 else (e.readers ins.I).count ch := by
  rw [Executor.applyCmd]
  dsimp only
  cases (e.written ins).bind ValueMeta.data with
  | none => rfl
  | some data =>
    rw [if_neg nofun, received, List.countP_map, List.count]
    rfl

namespace Served

theorem calls_append (ops : VecOps) (before : List ExecutorCall) (c : ExecutorCall) :
    calls ops (before ++ [c]) = (calls ops before).call ops c := by
  rw [calls, List.foldl_append]
  rfl

theorem CanAnswer.received {ins : Instance} (h : s.CanAnswer ins)
    (hch : ch ∈ s.exe.readers ins.I) :
    received ch (s.sends (.applyCmd ins)) = 1 ∧ received ch s.sent = 0 := by
  obtain ⟨hdata, hnodup, hnew⟩ := h (List.ne_nil_of_mem hch)
  rw [sends, received_applyCmd, if_neg hdata]
  exact ⟨List.count_eq_one_of_mem hnodup hch, hnew ch hch⟩

theorem answers (h : ∀ ins, c = .applyCmd ins → s.CanAnswer ins) : s.Answers ops c := by
  intro i ch hch hleft
  cases c with
  | addCmd key seq j res => exact absurd (mem_readers_addCmd hch) hleft
  | removeCmdRes j res =>
    left
    by_contra hne
    refine hleft (mem_readers_removeCmdRes hch ?_)
    rintro ⟨rfl, rfl⟩
    exact hne rfl
  | applyCmd ins =>
    right
    rw [call, Executor.call, readers_applyCmd] at hleft
    split_ifs at hleft with hi
    · subst hi
      exact ⟨ins, rfl, rfl, ((h ins rfl).received hch).1⟩
    · exact absurd hch hleft

theorem once (h : ∀ ins, c = .applyCmd ins → s.CanAnswer ins)
    (hs : ∀ ch, received ch s.sent ≤ 1) (ch : Nat) : received ch (s.call ops c).sent ≤ 1 := by
  rw [call, received_append]
  cases c with
  | addCmd | removeCmdRes => exact hs ch
  | applyCmd ins =>
    by_cases hch : ch ∈ s.exe.readers ins.I
    · obtain ⟨hone, hzero⟩ := (h ins rfl).received hch
      rw [hone, hzero]
    · have hnone : received ch (s.sends (.applyCmd ins)) = 0 := by
        rw [sends, received_applyCmd, List.count_eq_zero_of_not_mem hch, ite_self]
      rw [hnone]
      exact hs ch

/-- A call of `applyCmd` that drops no reader and repeats no value is one that can answer. -/
theorem canAnswer {ins : Instance} (h : s.Answers ops (.applyCmd ins))
    (honce : ∀ ch, received ch (s.call ops (.applyCmd ins)).sent ≤ 1) : s.CanAnswer ins := by
  have hone {ch : Nat} (hch : ch ∈ s.exe.readers ins.I) :
      received ch (s.sends (.applyCmd ins)) = 1 := by
    have hleft : ch ∉ (s.call ops (.applyCmd ins)).exe.readers ins.I := by
      rw [call, Executor.call, readers_applyCmd, if_pos rfl]
      exact List.not_mem_nil
    obtain hc | ⟨ins', hc, -, hr⟩ := h ins.I ch hch hleft
    · cases hc
    · exact hr
  intro hne
  obtain ⟨ch₀, hch₀⟩ := List.exists_mem_of_ne_nil _ hne
  have hdata : (s.exe.written ins).bind ValueMeta.data ≠ none := by
    intro hnone
    have hzero := hone hch₀
    rw [sends, received_applyCmd, if_pos hnone] at hzero
    cases hzero
  refine ⟨hdata, ?_, ?_⟩
  · rw [List.nodup_iff_count_le_one]
    intro ch
    by_cases hch : ch ∈ s.exe.readers ins.I
    · have hr := hone hch
      rw [sends, received_applyCmd, if_neg hdata] at hr
      exact hr.le
    · rw [List.count_eq_zero_of_not_mem hch]
      exact Nat.zero_le 1
  · intro ch hch
    have hle := honce ch
    rw [call, received_append, hone hch] at hle
    omega

end Served

/-- No reader is dropped in a run exactly when each `applyCmd` of the run finds a value for the
readers of its instance, and finds each of them once and without a value. -/
theorem noReaderDropped_iff (ops : VecOps) (cs : List ExecutorCall) :
    NoReaderDropped ops cs ↔ ∀ before ins after, cs = before ++ .applyCmd ins :: after →
      (Served.calls ops before).CanAnswer ins := by
  constructor
  · intro h before ins after hcs
    apply Served.canAnswer (h.answers before _ after hcs)
    rw [← Served.calls_append]
    exact h.once (before ++ [.applyCmd ins]) after (by rw [hcs]; simp)
  · intro h
    constructor
    · rintro before c after hcs
      apply Served.answers
      rintro ins rfl
      exact h before ins after hcs
    · intro before
      induction before using List.reverseRecOn with
      | nil => exact fun after _ ch => Nat.zero_le 1
      | append_singleton before c ih =>
        intro after hcs
        rw [List.append_assoc, List.singleton_append] at hcs
        rw [Served.calls_append]
        refine Served.once ?_ (ih (c :: after) hcs)
        rintro ins rfl
        exact h before ins after hcs

end

def readUnwritten : Instance :=
  ⟨⟨0, 1⟩, ⟨1, 0, 0⟩, ⟨1, 0, 0⟩, .committed, ⟨.r, [1], none⟩, 1, []⟩

theorem reader_dropped : ¬ NoReaderDropped .plain
    [.addCmd [1] 1 ⟨0, 1⟩ (some 7), .applyCmd readUnwritten] := by
  intro h
  have hanswers :=
    h.answers [.addCmd [1] 1 ⟨0, 1⟩ (some 7)] (.applyCmd readUnwritten) [] rfl ⟨0, 1⟩ 7
  obtain hc | ⟨ins, hc, -, hr⟩ := hanswers (by decide) (by decide)
  · cases hc
  · revert hr
    decide

end Misc.Epaxos
