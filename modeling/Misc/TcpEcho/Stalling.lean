import Mathlib
import Misc.TcpEcho.Client

namespace Misc.TcpEcho
open Misc.Lib
set_option autoImplicit true

namespace IoContext

section
variable {ctx ctx' : IoContext} {reads : List (Except Nat (List UInt8))}
  {writes : List (Except Nat Nat)}
  {ev : Event}

theorem unasked_eq {results : List α} (h : unasked results ctx = some ctx') :
    results = [] ∧ ctx' = ctx := by
  obtain ⟨hnil, heq⟩ := Option.ite_none_right_eq_some.1 h
  cases heq
  exact ⟨List.isEmpty_iff.1 hnil, rfl⟩

theorem error_mem_cons {e : ε} {a : α} {results : List (Except ε α)} :
    .error e ∈ Except.ok a :: results ↔ .error e ∈ results :=
  List.mem_cons.trans (or_iff_right nofun)

theorem readLoop_nil (h : readLoop [] ctx = some ctx') :
    ctx' = ctx ∧ ctx.data.sz = clientBufSize := by
  rw [readLoop] at h
  split_ifs at h with hroom
  cases h
  exact ⟨rfl, Nat.le_antisymm (Client.sz_le _) (Nat.le_of_not_lt hroom)⟩

theorem readLoop_cons {r : Except Nat (List UInt8)} (h : readLoop (r :: reads) ctx = some ctx') :
    (r = .error EAGAIN ∧ reads = [] ∧ ctx' = { ctx with prd := false }) ∨
    (∃ e, e ≠ EAGAIN ∧ r = .error e ∧ reads = [] ∧ ctx' = ctx.closeClient .error) ∨
    (r = .ok [] ∧ reads = [] ∧ ctx' = ctx.closeClient .eof) ∨
    ∃ data, ∃ hfit : ctx.data.sz + data.length ≤ clientBufSize,
      data ≠ [] ∧ r = .ok data ∧ readLoop reads (ctx.fill data hfit) = some ctx' := by
  rw [readLoop.eq_def] at h
  dsimp only at h
  split_ifs at h
  cases r with
  | error e =>
    obtain ⟨hnil, rfl⟩ := unasked_eq h
    split_ifs with heq
    · exact Or.inl ⟨by rw [heq], hnil, rfl⟩
    · exact Or.inr (Or.inl ⟨e, heq, rfl, hnil, rfl⟩)
  | ok data =>
    dsimp only at h
    split_ifs at h with hfit hdata
    · obtain ⟨hnil, rfl⟩ := unasked_eq h
      exact Or.inr (Or.inr (Or.inl ⟨by rw [hdata], hnil, rfl⟩))
    · exact Or.inr (Or.inr (Or.inr ⟨data, hfit, hdata, rfl, h⟩))

theorem writeLoop_nil (h : writeLoop [] ctx = some ctx') :
    ctx' = ctx ∧ ctx.data.wr = ctx.data.sz := by
  rw [writeLoop] at h
  split_ifs at h with hleft
  cases h
  exact ⟨rfl, Nat.le_antisymm (Client.wr_le _) (Nat.le_of_not_lt hleft)⟩

theorem writeLoop_cons {r : Except Nat Nat} (h : writeLoop (r :: writes) ctx = some ctx') :
    (r = .error EAGAIN ∧ writes = [] ∧ ctx' = { ctx with pwr := false } ∧
      ctx.data.wr < ctx.data.sz) ∨
    (∃ e, e ≠ EAGAIN ∧ r = .error e ∧ writes = [] ∧ ctx' = ctx.closeClient .error) ∨
    ∃ n, ∃ hfit : ctx.data.wr + n ≤ ctx.data.sz,
      r = .ok n ∧ writeLoop writes (ctx.advance n hfit) = some ctx' := by
  rw [writeLoop.eq_def] at h
  dsimp only at h
  split_ifs at h with hleft
  cases r with
  | error e =>
    obtain ⟨hnil, rfl⟩ := unasked_eq h
    split_ifs with heq
    · exact Or.inl ⟨by rw [heq], hnil, rfl, hleft⟩
    · exact Or.inr (Or.inl ⟨e, heq, rfl, hnil, rfl⟩)
  | ok n =>
    dsimp only at h
    split_ifs at h with hfit
    exact Or.inr (Or.inr ⟨n, hfit, rfl, h⟩)

/-- What has been read is what has been written and what is still in the buffer. -/
def Flows (ctx : IoContext) : Prop := ctx.got = ctx.put ++ ctx.data.pending

theorem Flows.fill (hf : ctx.Flows) (data : List UInt8)
    (h : ctx.data.sz + data.length ≤ clientBufSize) : (ctx.fill data h).Flows := by
  rw [Flows, IoContext.fill, Client.pending_fill, hf, List.append_assoc]

theorem Flows.advance (hf : ctx.Flows) (n : Nat) (h : ctx.data.wr + n ≤ ctx.data.sz) :
    (ctx.advance n h).Flows := by
  rw [Flows, IoContext.advance, List.append_assoc, Client.pending_advance]
  exact hf

theorem Flows.readLoop (hf : ctx.Flows) (h : readLoop reads ctx = some ctx') : ctx'.Flows := by
  induction reads generalizing ctx with
  | nil =>
    obtain ⟨rfl, -⟩ := readLoop_nil h
    exact hf
  | cons r rs ih =>
    obtain ⟨-, -, rfl⟩ | ⟨e, -, -, -, rfl⟩ | ⟨-, -, rfl⟩ | ⟨data, hfit, -, -, h⟩ :=
      readLoop_cons h
    · exact hf
    · exact hf
    · exact hf
    · exact ih (hf.fill data hfit) h

theorem Flows.writeLoop (hf : ctx.Flows) (h : writeLoop writes ctx = some ctx') :
    ctx'.Flows := by
  induction writes generalizing ctx with
  | nil =>
    obtain ⟨rfl, -⟩ := writeLoop_nil h
    exact hf
  | cons r rs ih =>
    obtain ⟨-, -, rfl, -⟩ | ⟨e, -, -, -, rfl⟩ | ⟨n, hfit, -, h⟩ := writeLoop_cons h
    · exact hf
    · exact hf
    · exact ih (hf.advance n hfit) h

theorem Flows.restart (hf : ctx.Flows) : ctx.restart.Flows := by
  rw [IoContext.restart]
  split_ifs with hdone
  · rw [Flows, Client.pending_reset, hf, (Client.pending_eq_nil _).2 hdone.2]
  · exact hf

theorem handleClientIo_cases (h : ctx.handleClientIo reads writes = some ctx') :
    ∃ mid, (ctx.prd = true ∧ readLoop reads ctx = some mid ∨
        ctx.prd = false ∧ reads = [] ∧ mid = ctx) ∧
      ((mid.closed = none ∧ mid.pwr = true) ∧ (∃ last, writeLoop writes mid = some last ∧
          ctx' = last.restart) ∨
        ¬ (mid.closed = none ∧ mid.pwr = true) ∧ writes = [] ∧ ctx' = mid) := by
  obtain ⟨mid, hread, hwrite⟩ := Option.bind_eq_some_iff.1 h
  refine ⟨mid, ?_, ?_⟩
  · cases hprd : ctx.prd with
    | true =>
      rw [hprd, if_pos rfl] at hread
      exact Or.inl ⟨rfl, hread⟩
    | false =>
      rw [hprd, if_neg Bool.false_ne_true] at hread
      exact Or.inr ⟨rfl, unasked_eq hread⟩
  · split_ifs at hwrite with hopen
    · obtain ⟨last, hlast, rfl⟩ := Option.map_eq_some_iff.1 hwrite
      exact Or.inl ⟨hopen, last, hlast, rfl⟩
    · exact Or.inr ⟨hopen, unasked_eq hwrite⟩

theorem Flows.handleClientIo (hf : ctx.Flows) (h : ctx.handleClientIo reads writes = some ctx') :
    ctx'.Flows := by
  obtain ⟨mid, hread, hwrite⟩ := handleClientIo_cases h
  have hmid : mid.Flows := by
    rcases hread with ⟨-, hread⟩ | ⟨-, -, rfl⟩
    · exact hf.readLoop hread
    · exact hf
  rcases hwrite with ⟨-, last, hlast, rfl⟩ | ⟨-, -, rfl⟩
  · exact (hmid.writeLoop hlast).restart
  · exact hmid

theorem processIo_eq (h : ctx.processIo ev = some ctx') :
    ctx.closed = none ∧ (ctx.notify ev).handleClientIo ev.reads ev.writes = some ctx' :=
  Option.ite_none_right_eq_some.1 h

theorem Flows.run (h : machine.Reach ctx) : ctx.Flows := by
  refine h.invariant (fun ctx hctx => ?_) fun ctx ev ctx' hf _ hs => ?_
  · rw [Flows, hctx.got, hctx.put, (Client.pending_eq_nil _).2 (hctx.wr.trans hctx.sz.symm)]
    rfl
  · have hnote : (ctx.notify ev).Flows := hf
    exact hnote.handleClientIo (processIo_eq hs).2

end

/-- The socket has been read until `EAGAIN`, or the buffer is full and writing is blocked. -/
def Due (ctx : IoContext) : Prop :=
  ctx.prd = false ∨ ctx.data.sz = clientBufSize ∧ ctx.pwr = false

/-- No end of file and no error but `EAGAIN`. -/
def Quiet (_ : IoContext) (ev : Event) : Prop :=
  .ok [] ∉ ev.reads ∧ (∀ e, .error e ∈ ev.reads → e = EAGAIN) ∧
    ∀ e, .error e ∈ ev.writes → e = EAGAIN

/-- One of the flags is down when the handler starts, or a call of it meets `EAGAIN`. -/
def Blocked (ctx : IoContext) (ev : Event) : Prop :=
  (ctx.notify ev).prd = false ∨ (ctx.notify ev).pwr = false ∨
    .error EAGAIN ∈ ev.reads ∨ .error EAGAIN ∈ ev.writes

section
variable {ctx ctx' : IoContext} {reads : List (Except Nat (List UInt8))}
  {writes : List (Except Nat Nat)}
  {ev : Event}

theorem readLoop_quiet (h : readLoop reads ctx = some ctx') (heof : .ok [] ∉ reads)
    (herr : ∀ e, .error e ∈ reads → e = EAGAIN) :
    ctx'.closed = ctx.closed ∧ ctx'.pwr = ctx.pwr ∧
      (.error EAGAIN ∈ reads ∧ ctx'.prd = false ∨
        .error EAGAIN ∉ reads ∧ ctx'.prd = ctx.prd ∧ ctx'.data.sz = clientBufSize) := by
  induction reads generalizing ctx with
  | nil =>
    obtain ⟨rfl, hfull⟩ := readLoop_nil h
    exact ⟨rfl, rfl, Or.inr ⟨nofun, rfl, hfull⟩⟩
  | cons r rs ih =>
    obtain ⟨rfl, -, rfl⟩ | ⟨e, hne, rfl, -⟩ | ⟨rfl, -⟩ | ⟨data, hfit, -, rfl, hrest⟩ :=
      readLoop_cons h
    · exact ⟨rfl, rfl, Or.inl ⟨List.mem_cons_self, rfl⟩⟩
    · exact absurd (herr e List.mem_cons_self) hne
    · exact absurd List.mem_cons_self heof
    · rw [error_mem_cons]
      have hrec := ih hrest (fun hmem => heof (List.mem_cons_of_mem _ hmem))
        fun e hmem => herr e (List.mem_cons_of_mem _ hmem)
      exact hrec

theorem writeLoop_quiet (h : writeLoop writes ctx = some ctx')
    (herr : ∀ e, .error e ∈ writes → e = EAGAIN) :
    ctx'.closed = ctx.closed ∧ ctx'.prd = ctx.prd ∧ ctx'.data.sz = ctx.data.sz ∧
      (.error EAGAIN ∈ writes ∧ ctx'.pwr = false ∧ ctx'.data.wr < ctx'.data.sz ∨
        .error EAGAIN ∉ writes ∧ ctx'.data.wr = ctx'.data.sz) := by
  induction writes generalizing ctx with
  | nil =>
    obtain ⟨rfl, heq⟩ := writeLoop_nil h
    exact ⟨rfl, rfl, rfl, Or.inr ⟨nofun, heq⟩⟩
  | cons r rs ih =>
    obtain ⟨rfl, -, rfl, hlt⟩ | ⟨e, hne, rfl, -⟩ | ⟨n, hfit, rfl, hrest⟩ := writeLoop_cons h
    · exact ⟨rfl, rfl, rfl, Or.inl ⟨List.mem_cons_self, rfl, hlt⟩⟩
    · exact absurd (herr e List.mem_cons_self) hne
    · rw [error_mem_cons]
      have hrec := ih hrest fun e hmem => herr e (List.mem_cons_of_mem _ hmem)
      exact hrec

theorem readPhase_quiet {mid : IoContext} (hopen : ctx.closed = none) (heof : .ok [] ∉ reads)
    (herr : ∀ e, .error e ∈ reads → e = EAGAIN)
    (h : ctx.prd = true ∧ readLoop reads ctx = some mid ∨
      ctx.prd = false ∧ reads = [] ∧ mid = ctx) :
    mid.closed = none ∧ mid.pwr = ctx.pwr ∧
      ((ctx.prd = false ∨ .error EAGAIN ∈ reads) ∧ mid.prd = false ∨
        ¬ (ctx.prd = false ∨ .error EAGAIN ∈ reads) ∧ mid.prd = true ∧
          mid.data.sz = clientBufSize) := by
  rcases h with ⟨hprd, hread⟩ | ⟨hprd, -, rfl⟩
  · obtain ⟨hclosed, hpwr, ⟨hmem, hdone⟩ | ⟨hmem, hsame, hfull⟩⟩ :=
      readLoop_quiet hread heof herr
    · exact ⟨hclosed.trans hopen, hpwr, Or.inl ⟨Or.inr hmem, hdone⟩⟩
    · refine ⟨hclosed.trans hopen, hpwr, Or.inr ⟨?_, hsame.trans hprd, hfull⟩⟩
      rw [hprd, or_iff_right Bool.noConfusion]
      exact hmem
  · exact ⟨hopen, rfl, Or.inl ⟨Or.inl hprd, hprd⟩⟩

/-- A call ends with an event still due if and only if something has blocked it. -/
theorem due_iff (hq : ctx.Quiet ev) (h : machine.step ctx ev = some ctx') :
    ctx'.Due ↔ ctx.Blocked ev := by
  obtain ⟨hopen, h⟩ := processIo_eq h
  have hopen : (ctx.notify ev).closed = none := hopen
  rw [Blocked]
  generalize ctx.notify ev = ctx at h hopen ⊢
  obtain ⟨heof, hread, hwrite⟩ := hq
  obtain ⟨mid, hmid, hlast⟩ := handleClientIo_cases h
  obtain ⟨hclosed, hpwr, hmid⟩ := readPhase_quiet hopen heof hread hmid
  rcases hlast with ⟨⟨-, hyes⟩, last, hlast, rfl⟩ | ⟨hnot, hnil, rfl⟩
  · rw [hyes] at hpwr
    obtain ⟨hopen, hprd, hsz, ⟨hmem, hlow, hlt⟩ | ⟨hmem, heq⟩⟩ := writeLoop_quiet hlast hwrite
    · rw [restart, if_neg fun hdone => Nat.ne_of_lt hlt hdone.2]
      refine iff_of_true ?_ (Or.inr (Or.inr (Or.inr hmem)))
      rcases hmid with ⟨-, hdone⟩ | ⟨-, -, hfull⟩
      · exact Or.inl (hprd.trans hdone)
      · exact Or.inr ⟨hsz.trans hfull, hlow⟩
    · rw [restart, if_pos ⟨hopen.trans hclosed, heq⟩]
      rcases hmid with ⟨hblock, hdone⟩ | ⟨hblock, hdone, -⟩
      · apply iff_of_true (Or.inl (hprd.trans hdone))
        rcases hblock with hblock | hblock
        · exact Or.inl hblock
        · exact Or.inr (Or.inr (Or.inl hblock))
      · refine iff_of_false ?_ ?_
        · rintro (hlow | ⟨hzero, -⟩)
          · cases (hprd.trans hdone).symm.trans hlow
          · cases hzero
        · rintro (hlow | hlow | hagain | hagain)
          · exact hblock (Or.inl hlow)
          · cases hpwr.trans hlow
          · exact hblock (Or.inr hagain)
          · exact hmem hagain
  · have hlow : ctx'.pwr = false := Bool.eq_false_iff.2 fun hyes => hnot ⟨hclosed, hyes⟩
    refine iff_of_true ?_ (Or.inr (Or.inl (hpwr.symm.trans hlow)))
    rcases hmid with ⟨-, hdone⟩ | ⟨-, -, hfull⟩
    · exact Or.inl hdone
    · exact Or.inr ⟨hfull, hlow⟩

/-- In every run, what has been written is a prefix of what has been read, and an event is due
after each call if and only if each has been blocked. -/
theorem never_stalls_iff {ctx₀ : IoContext} {evs : List Event} (h₀ : machine.init ctx₀)
    (h : machine.RunIf Quiet ctx₀ evs ctx) :
    ((∀ evs' mid, evs' <+: evs → machine.Run ctx₀ evs' mid → mid.Due) ↔
      machine.RunIf Blocked ctx₀ evs ctx) ∧ ctx.put <+: ctx.got := by
  refine ⟨h.forall_iff (Or.inl h₀.prd) fun s a t hq hs => due_iff hq hs, ?_⟩
  have hf : ctx.Flows := Flows.run ⟨ctx₀, evs, h₀, h.mono fun _ _ _ => trivial⟩
  exact ⟨_, hf.symm⟩

end

def accepted : IoContext where
  data := ⟨List.replicate clientBufSize 0, 0, 0, List.length_replicate, le_rfl, Nat.zero_le _⟩
  prd := false
  pwr := false
  got := []
  put := []
  closed := none

theorem fresh_accepted : machine.init accepted := ⟨rfl, rfl, rfl, rfl, rfl, rfl, rfl⟩

/-- A byte is read and written. -/
theorem never_stalls_iff_byte : ∃ ctx evs, machine.RunIf Quiet accepted evs ctx ∧
    ((∀ evs' mid, evs' <+: evs → machine.Run accepted evs' mid → mid.Due) ↔
      machine.RunIf Blocked accepted evs ctx) ∧ ctx.put <+: ctx.got := by
  have hrun :
      machine.RunIf Quiet accepted [⟨true, true, [.ok [104], .error EAGAIN], [.ok 1]⟩] _ :=
    .cons ⟨by simp, by simp, by simp⟩ rfl (.nil _)
  exact ⟨_, _, hrun, never_stalls_iff fresh_accepted hrun⟩

/-- The buffer is filled by one call of `read` and emptied by one call of `write`. -/
def oneGulp : Event := ⟨true, true, [.ok (List.replicate clientBufSize 0)], [.ok clientBufSize]⟩

theorem stalls : ¬ ∀ ctx₀ evs ctx, machine.init ctx₀ → machine.RunIf Quiet ctx₀ evs ctx →
    ctx.Due ∧ ctx.put <+: ctx.got := by
  intro h
  have hsome : (machine.step accepted oneGulp).isSome := by decide +kernel
  obtain ⟨ctx, hstep⟩ := Option.isSome_iff_exists.1 hsome
  have hq : Quiet accepted oneGulp := by
    refine ⟨fun hmem => ?_, by simp [oneGulp], by simp [oneGulp]⟩
    have hlen := congrArg List.length (Except.ok.inj (List.mem_singleton.1 hmem))
    rw [List.length_replicate] at hlen
    cases hlen
  have hdue := (h accepted [oneGulp] ctx fresh_accepted (.cons hq hstep (.nil ctx))).1
  rcases (due_iff hq hstep).1 hdue with hlow | hlow | hagain | hagain
  · cases hlow
  · cases hlow
  · cases List.mem_singleton.1 hagain
  · cases List.mem_singleton.1 hagain

end IoContext

end Misc.TcpEcho
