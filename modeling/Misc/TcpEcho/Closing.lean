import Misc.TcpEcho.Stalling

namespace Misc.TcpEcho
open Misc.Lib
set_option autoImplicit true

namespace IoContext

section
variable {ctx ctx' : IoContext} {reads : List (Except Nat (List UInt8))}
  {writes : List (Except Nat Nat)}
  {ev : Event}

/-- The end of file closes the client with an empty buffer only if it is all that is read. -/
theorem readLoop_eof (h : readLoop reads ctx = some ctx') (hopen : ctx.closed = none)
    (heof : ctx'.closed = some .eof) :
    ctx'.data.pending = [] ↔ ctx.data.pending = [] ∧ reads.head? = some (.ok []) := by
  induction reads generalizing ctx with
  | nil =>
    obtain ⟨rfl, -⟩ := readLoop_nil h
    cases hopen.symm.trans heof
  | cons r rs ih =>
    obtain ⟨-, -, rfl⟩ | ⟨e, -, -, -, rfl⟩ | ⟨rfl, -, rfl⟩ | ⟨data, hfit, hne, rfl, hrest⟩ :=
      readLoop_cons h
    · cases hopen.symm.trans heof
    · cases heof
    · exact (and_iff_left rfl).symm
    · rw [ih hrest hopen]
      refine iff_of_false (fun hempty => ?_) fun hempty => ?_
      · have hfill := hempty.1
        rw [fill, Client.pending_fill, List.append_eq_nil_iff] at hfill
        exact hne hfill.2
      · exact hne (Except.ok.inj (Option.some.inj hempty.2))

theorem writeLoop_not_eof (h : writeLoop writes ctx = some ctx') (hopen : ctx.closed = none) :
    ctx'.closed ≠ some .eof := by
  induction writes generalizing ctx with
  | nil =>
    obtain ⟨rfl, -⟩ := writeLoop_nil h
    rw [hopen]
    nofun
  | cons r rs ih =>
    obtain ⟨-, -, rfl, -⟩ | ⟨e, -, -, -, rfl⟩ | ⟨n, hfit, -, hrest⟩ := writeLoop_cons h
    · rw [show IoContext.closed { ctx with pwr := false } = none from hopen]
      nofun
    · nofun
    · exact ih hrest hopen

theorem restart_closed (ctx : IoContext) : ctx.restart.closed = ctx.closed := by
  rw [restart]
  split_ifs <;> rfl

theorem handleClientIo_eof (h : ctx.handleClientIo reads writes = some ctx')
    (hopen : ctx.closed = none)
    (heof : ctx'.closed = some .eof) : readLoop reads ctx = some ctx' := by
  obtain ⟨mid, hread, hwrite⟩ := handleClientIo_cases h
  rcases hwrite with ⟨⟨hmid, -⟩, last, hlast, rfl⟩ | ⟨-, -, rfl⟩
  · rw [restart_closed] at heof
    exact absurd heof (writeLoop_not_eof hlast hmid)
  · rcases hread with ⟨-, hread⟩ | ⟨-, -, rfl⟩
    · exact hread
    · cases hopen.symm.trans heof

/-- In every run, the client has been sent all that was read from it when the end of file closes
the connection if and only if nothing was in the buffer when the last call started and the end
of file is all that it has read. -/
theorem answers_iff (h : machine.Reach ctx) (hs : machine.step ctx ev = some ctx')
    (heof : ctx'.closed = some .eof) :
    ctx'.put = ctx'.got ↔ ctx.data.wr = ctx.data.sz ∧ ev.reads.head? = some (.ok []) := by
  obtain ⟨hopen, hcall⟩ := processIo_eq hs
  have hread := handleClientIo_eof hcall hopen heof
  have hflows := Flows.run h
  have hnote : (ctx.notify ev).Flows := hflows
  have hlast : ctx'.Flows := hnote.readLoop hread
  rw [hlast, List.self_eq_append_right, readLoop_eof hread hopen heof, Client.pending_eq_nil]
  rfl

def answered : IoContext :=
  { accepted with
    data := (accepted.data.fill [104] (by decide)).reset
    pwr := true
    got := [104]
    put := [104] }

def bye : Event := ⟨true, false, [.ok []], []⟩

theorem answers_iff_byte : ∃ ctx', machine.step answered bye = some ctx' ∧ (ctx'.put = ctx'.got ↔
    answered.data.wr = answered.data.sz ∧ bye.reads.head? = some (.ok [])) := by
  have hrun :
      machine.Run accepted [⟨true, true, [.ok [104], .error EAGAIN], [.ok 1]⟩] answered :=
    .cons trivial rfl (.nil _)
  have hlast : machine.step answered bye = some _ := rfl
  exact ⟨_, hlast, answers_iff ⟨_, _, fresh_accepted, hrun⟩ hlast rfl⟩

/-- A byte and the end of file are read in one call. -/
theorem unanswered : ¬ ∀ (ctx ctx' : IoContext) (ev : Event), machine.Reach ctx →
    machine.step ctx ev = some ctx' → ctx'.closed = some .eof → ctx'.put = ctx'.got := by
  intro h
  have hput :=
    h accepted _ ⟨true, true, [.ok [104], .ok []], []⟩ ⟨_, [], fresh_accepted, .nil _⟩ rfl rfl
  cases hput

end

end IoContext

end Misc.TcpEcho
