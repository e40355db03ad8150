import Misc.Lib.Tables
import Misc.TcpEcho.Server
import Misc.TcpEcho.Stalling

namespace Misc.TcpEcho
open Misc.Lib
set_option autoImplicit true

/-- The context is where one that is alone goes by these events. -/
def Slot.Ran (slot : Slot) : Prop :=
  ∃ ctx₀, machine.init ctx₀ ∧ machine.Run ctx₀ slot.evs slot.ctx

/-- What the calls of `read` in these events have returned. -/
def received (evs : List Event) : List UInt8 :=
  evs.flatMap fun ev => ev.reads.flatMap fun r => r.toOption.getD []

namespace IoContext

section
variable {ctx ctx' : IoContext} {reads : List (Except Nat (List UInt8))}
  {writes : List (Except Nat Nat)}
  {ev : Event}

theorem readLoop_got (h : readLoop reads ctx = some ctx') :
    ctx'.got = ctx.got ++ reads.flatMap fun r => r.toOption.getD [] := by
  induction reads generalizing ctx with
  | nil =>
    obtain ⟨rfl, -⟩ := readLoop_nil h
    exact (List.append_nil _).symm
  | cons r rs ih =>
    obtain ⟨rfl, rfl, rfl⟩ | ⟨e, -, rfl, rfl, rfl⟩ | ⟨rfl, rfl, rfl⟩ | ⟨data, hfit, -, rfl,
      hrest⟩ := readLoop_cons h
    · exact (List.append_nil _).symm
    · exact (List.append_nil _).symm
    · exact (List.append_nil _).symm
    · rw [ih hrest, IoContext.fill, List.append_assoc]
      rfl

theorem writeLoop_got (h : writeLoop writes ctx = some ctx') : ctx'.got = ctx.got := by
  induction writes generalizing ctx with
  | nil =>
    obtain ⟨rfl, -⟩ := writeLoop_nil h
    rfl
  | cons r rs ih =>
    obtain ⟨-, -, rfl, -⟩ | ⟨e, -, -, -, rfl⟩ | ⟨n, hfit, -, h⟩ := writeLoop_cons h
    · rfl
    · rfl
    · exact (ih h).trans rfl

theorem restart_got (ctx : IoContext) : ctx.restart.got = ctx.got := by
  rw [restart]
  split_ifs <;> rfl

theorem processIo_got (h : ctx.processIo ev = some ctx') :
    ctx'.got = ctx.got ++ ev.reads.flatMap fun r => r.toOption.getD [] := by
  obtain ⟨mid, hread, hwrite⟩ := handleClientIo_cases (processIo_eq h).2
  have hmid : mid.got = ctx.got ++ ev.reads.flatMap fun r => r.toOption.getD [] := by
    obtain ⟨-, hread⟩ | ⟨-, hnil, rfl⟩ := hread
    · exact (readLoop_got hread).trans rfl
    · rw [hnil]
      exact (List.append_nil _).symm
  obtain ⟨-, last, hlast, rfl⟩ | ⟨-, -, rfl⟩ := hwrite
  · rw [restart_got, writeLoop_got hlast, hmid]
  · exact hmid

end

end IoContext

theorem Slot.Ran.echo {slot : Slot} (h : slot.Ran) :
    received slot.evs = slot.ctx.put ++ slot.ctx.data.pending := by
  obtain ⟨ctx₀, hinit, hrun⟩ := h
  have hnil : ctx₀.got = received [] := hinit.got
  have hgot : slot.ctx.got = received slot.evs := by
    refine hrun.history (I := fun evs ctx => ctx.got = received evs) hnil
      fun evs ctx ev ctx' hI _ hs => ?_
    rw [IoContext.processIo_got hs, hI, received, received, List.flatMap_append,
      List.flatMap_singleton]
  rw [← hgot]
  exact IoContext.Flows.run ⟨ctx₀, slot.evs, hinit, hrun⟩

namespace Server

/-! ## Resources -/

def fdOf (s : Server) (p : Nat) : Option Nat := (s.ctxs p).map Slot.fd

def dataOf (s : Server) (p : Nat) : Option Nat := (s.ctxs p).map Slot.data

/-- Who owns the descriptors and the blocks. -/
structure Exact (s : Server) : Prop where
  listen : s.epfd ≠ s.lfd
  listener : s.ctxs s.listener = none
  open_iff : ∀ fd, fd ∈ s.fds ↔ fd = s.epfd ∨ fd = s.lfd ∨ ∃ p, s.fdOf p = some fd
  fd_ne : ∀ p fd, s.fdOf p = some fd → fd ≠ s.epfd ∧ fd ≠ s.lfd
  fd_apart : Apart s.fdOf
  epoll_iff : ∀ fd p, s.epoll fd = some p ↔ fd = s.lfd ∧ p = s.listener ∨ s.fdOf p = some fd
  clients_iff : ∀ b, s.clients b = true ↔ ∃ p, s.dataOf p = some b
  data_apart : Apart s.dataOf
  opened : ∀ p slot, s.ctxs p = some slot → slot.ctx.closed = none

section
variable {s s' : Server} {slot slot' : Slot} {p q b fd cfd ep lf ls : Nat} {c : Client}
  {batch : List Nat} {ev : Event}
  {r : Except Failure Server} {a : Next}

theorem Exact.start (h : ep ≠ lf) : Exact (start ep lf ls) where
  listen := h
  listener := rfl
  open_iff fd := by simp [Server.start, fdOf]
  fd_ne p fd hp := by cases hp
  fd_apart p q fd hp := by cases hp
  epoll_iff fd p := by simp [Server.start, fdOf, eq_comm]
  clients_iff b := by simp [Server.start, dataOf]
  data_apart p q b hp := by cases hp
  opened p slot hp := by cases hp

theorem Exact.of_batch (h : s.Exact) (batch : Option (List Nat)) :
    Exact { s with batch := batch } :=
  ⟨h.listen, h.listener, h.open_iff, h.fd_ne, h.fd_apart, h.epoll_iff, h.clients_iff,
    h.data_apart, h.opened⟩

theorem Exact.replace (h : s.Exact) (hp : s.ctxs p = some slot) (slot' : Slot)
    (hfd : slot'.fd = slot.fd)
    (hdata : slot'.data = slot.data) (hopen : slot'.ctx.closed = none) :
    Exact { s with ctxs := Function.update s.ctxs p (some slot') } := by
  have hfdOf : fdOf { s with ctxs := Function.update s.ctxs p (some slot') } = s.fdOf := by
    funext q
    by_cases hq : q = p <;> simp [fdOf, hq, hp, hfd]
  have hdataOf : dataOf { s with ctxs := Function.update s.ctxs p (some slot') } = s.dataOf := by
    funext q
    by_cases hq : q = p <;> simp [dataOf, hq, hp, hdata]
  have hne : s.listener ≠ p := fun heq => by
    rw [← heq, h.listener] at hp
    cases hp
  refine ⟨h.listen, (Function.update_of_ne hne ..).trans h.listener, ?_, ?_, ?_, ?_,
    ?_, ?_, fun q sl hq => ?_⟩
  · exact hfdOf ▸ h.open_iff
  · exact hfdOf ▸ h.fd_ne
  · exact hfdOf ▸ h.fd_apart
  · exact hfdOf ▸ h.epoll_iff
  · exact hdataOf ▸ h.clients_iff
  · exact hdataOf ▸ h.data_apart
  · obtain ⟨-, rfl⟩ | ⟨-, hq⟩ := update_some_iff.1 hq
    · exact hopen
    · exact h.opened q sl hq

theorem Exact.handleNewClient (h : s.Exact) (hf : s.Fresh cfd p b) :
    (s.handleNewClient cfd p b c).Exact := by
  obtain ⟨hcfd, hlistener, hp, hb⟩ := hf
  rw [Option.isNone_iff_eq_none] at hp
  have hfdOf : (s.handleNewClient cfd p b c).fdOf = Function.update s.fdOf p (some cfd) := by
    funext q
    by_cases hq : q = p <;> simp [fdOf, Server.handleNewClient, hq]
  have hdataOf : (s.handleNewClient cfd p b c).dataOf = Function.update s.dataOf p (some b) := by
    funext q
    by_cases hq : q = p <;> simp [dataOf, Server.handleNewClient, hq]
  have hfree : s.fdOf p = none := by rw [fdOf, hp, Option.map_none]
  have hblock : s.dataOf p = none := by rw [dataOf, hp, Option.map_none]
  refine ⟨h.listen, (Function.update_of_ne hlistener.symm ..).trans h.listener, fun fd =>
    ?_, fun q fd hq => ?_, ?_, fun fd q => ?_, fun d => ?_, ?_, fun q sl hq => ?_⟩
  · rw [hfdOf, exists_update_some hfree]
    apply List.mem_cons.trans
    rw [h.open_iff]
    tauto
  · rw [hfdOf] at hq
    obtain ⟨-, rfl⟩ | ⟨-, hq⟩ := update_some_iff.1 hq
    · exact ⟨fun heq => hcfd ((h.open_iff _).2 (.inl heq)), fun heq =>
        hcfd ((h.open_iff _).2 (.inr (.inl heq)))⟩
    · exact h.fd_ne q fd hq
  · rw [hfdOf]
    exact h.fd_apart.insert fun q hq => hcfd ((h.open_iff cfd).2 (.inr (.inr ⟨q, hq⟩)))
  · rw [hfdOf, update_some_iff]
    apply update_some_iff.trans
    rw [h.epoll_iff]
    constructor
    · rintro (⟨rfl, rfl⟩ | ⟨-, hl | hq⟩)
      · exact .inr (.inl ⟨rfl, rfl⟩)
      · exact .inl hl
      · refine .inr (.inr ⟨?_, hq⟩)
        rintro rfl
        rw [hfree] at hq
        cases hq
    · rintro (⟨rfl, rfl⟩ | ⟨rfl, rfl⟩ | ⟨-, hq⟩)
      · exact .inr ⟨fun heq => hcfd ((h.open_iff _).2 (.inr (.inl heq.symm))), .inl ⟨rfl, rfl⟩⟩
      · exact .inl ⟨rfl, rfl⟩
      · refine .inr ⟨?_, .inr hq⟩
        rintro rfl
        exact hcfd ((h.open_iff _).2 (.inr (.inr ⟨q, hq⟩)))
  · rw [hdataOf, exists_update_some hblock, ← h.clients_iff]
    by_cases hd : d = b <;> simp [Server.handleNewClient, hd]
  · rw [hdataOf]
    apply h.data_apart.insert
    intro q hq
    rw [(h.clients_iff b).2 ⟨q, hq⟩] at hb
    cases hb
  · obtain ⟨-, rfl⟩ | ⟨-, hq⟩ := update_some_iff.1 hq
    · rfl
    · exact h.opened q sl hq

theorem Exact.closeClient (h : s.Exact) (hp : s.ctxs p = some slot) (slot' : Slot)
    (hfd : slot'.fd = slot.fd)
    (hdata : slot'.data = slot.data) :
    ∃ s', s.closeClient p slot' = .ok s' ∧ s'.Exact ∧ s'.batch = s.batch ∧
      s'.listener = s.listener ∧ s'.ctxs = Function.update s.ctxs p none ∧
        s'.closed = s.closed ++ [slot'] := by
  have hfdOf : s.fdOf p = some slot.fd := by rw [fdOf, hp, Option.map_some]
  have hdataOf : s.dataOf p = some slot.data := by rw [dataOf, hp, Option.map_some]
  have hblock : s.clients slot.data = true := (h.clients_iff _).2 ⟨p, hdataOf⟩
  have hepoll : s.epoll slot.fd = some p := (h.epoll_iff _ _).2 (.inr hfdOf)
  have hfdOf' : ∀ s' : Server, s'.ctxs = Function.update s.ctxs p none →
      s'.fdOf = Function.update s.fdOf p none := by
    intro s' hs'
    funext q
    by_cases hq : q = p <;> simp [fdOf, hs', hq]
  have hdataOf' : ∀ s' : Server, s'.ctxs = Function.update s.ctxs p none →
      s'.dataOf = Function.update s.dataOf p none := by
    intro s' hs'
    funext q
    by_cases hq : q = p <;> simp [dataOf, hs', hq]
  rw [Server.closeClient, hfd, hdata, if_neg (by simp [hblock]), if_neg (by simp [hepoll])]
  refine ⟨_, rfl,
    ⟨h.listen, ?_, fun fd => ?_, fun q fd hq => ?_, ?_, fun fd q => ?_, fun b =>
    ?_, ?_, fun q sl hq => ?_⟩, rfl, rfl, rfl, rfl⟩
  · simp only [Function.update_apply]
    split_ifs
    · rfl
    · exact h.listener
  · rw [hfdOf' _ rfl, h.fd_apart.exists_remove hfdOf]
    apply List.mem_filter.trans
    rw [h.open_iff, decide_eq_true_eq]
    constructor
    · rintro ⟨hf | hf | hf, hne⟩
      · exact .inl hf
      · exact .inr (.inl hf)
      · exact .inr (.inr ⟨hne, hf⟩)
    · rintro (rfl | rfl | ⟨hne, hf⟩)
      · exact ⟨.inl rfl, (h.fd_ne p _ hfdOf).1.symm⟩
      · exact ⟨.inr (.inl rfl), (h.fd_ne p _ hfdOf).2.symm⟩
      · exact ⟨.inr (.inr hf), hne⟩
  · rw [hfdOf' _ rfl] at hq
    exact h.fd_ne q fd (update_none_iff.1 hq).2
  · rw [hfdOf' _ rfl]
    exact h.fd_apart.remove
  · rw [hfdOf' _ rfl, h.fd_apart.remove_iff hfdOf]
    apply update_none_iff.trans
    rw [h.epoll_iff]
    constructor
    · rintro ⟨hne, hl | hq⟩
      · exact .inl hl
      · exact .inr ⟨hne, hq⟩
    · rintro (⟨rfl, rfl⟩ | ⟨hne, hq⟩)
      · exact ⟨(h.fd_ne p _ hfdOf).2.symm, .inl ⟨rfl, rfl⟩⟩
      · exact ⟨hne, .inr hq⟩
  · rw [hdataOf' _ rfl, h.data_apart.exists_remove hdataOf, ← h.clients_iff]
    by_cases hb : b = slot.data <;> simp [hb]
  · rw [hdataOf' _ rfl]
    exact h.data_apart.remove
  · exact h.opened q sl (update_none_iff.1 hq).2

end

/-! ## Runs -/

/-- What holds between two steps: the events left are of different contexts in memory. -/
structure Safe (s : Server) : Prop where
  exact : s.Exact
  nodup : ∀ l, s.batch = some l → l.Nodup
  batch : ∀ l, s.batch = some l → ∀ p ∈ l, p = s.listener ∨ s.ctxs p ≠ none
  ran : ∀ p slot, s.ctxs p = some slot → slot.Ran
  closed : ∀ slot ∈ s.closed, slot.Ran ∧ slot.ctx.closed ≠ none

section
variable {s s' : Server} {slot slot' : Slot} {p q b fd cfd ep lf ls : Nat} {c : Client}
  {l : List Nat} {ev : Event}
  {r : Except Failure Server} {a : Next}

theorem Safe.start (h : ep ≠ lf) : Safe (start ep lf ls) where
  exact := .start h
  nodup l hl := by cases hl
  batch l hl := by cases hl
  ran p slot hp := by cases hp
  closed slot hslot := (List.not_mem_nil hslot).elim

theorem Exact.live_of_epoll (h : s.Exact) (hp : s.epoll fd = some p) :
    p = s.listener ∨ s.ctxs p ≠ none := by
  obtain ⟨-, rfl⟩ | hfd := (h.epoll_iff fd p).1 hp
  · exact .inl rfl
  · refine .inr fun hnone => ?_
    rw [fdOf, hnone] at hfd
    cases hfd

theorem Exact.epoll_apart (h : s.Exact) : Apart s.epoll := by
  intro fd fd' p hp hp'
  obtain ⟨rfl, rfl⟩ | hfd := (h.epoll_iff fd p).1 hp <;> obtain ⟨rfl, hq⟩ | hfd' :=
    (h.epoll_iff fd' _).1 hp'
  · rfl
  · rw [fdOf, h.listener] at hfd'
    cases hfd'
  · rw [hq, fdOf, h.listener] at hfd
    cases hfd
  · exact Option.some.inj (hfd.symm.trans hfd')

theorem Safe.wait (h : s.Safe) (hl : l.Nodup) :
    Safe { s with batch := some (l.filterMap s.epoll) } where
  exact := h.exact.of_batch _
  nodup m hm := by
    cases hm
    exact hl.filterMap fun fd fd' p hp hp' => h.exact.epoll_apart fd fd' p hp hp'
  batch m hm p hp := by
    cases hm
    obtain ⟨fd, -, hp⟩ := List.mem_filterMap.1 hp
    exact h.exact.live_of_epoll hp
  ran := h.ran
  closed := h.closed

theorem Safe.accept (h : s.Safe) (hf : s.Fresh cfd p b) :
    (s.handleNewClient cfd p b c).Safe where
  exact := h.exact.handleNewClient hf
  nodup := h.nodup
  batch l hl q hq := by
    apply (h.batch l hl q hq).imp_right
    intro hne
    obtain ⟨slot, hslot⟩ := Option.ne_none_iff_exists'.1 hne
    have hqp : q ≠ p := by
      rintro rfl
      rw [Option.isNone_iff_eq_none.1 hf.2.2.1] at hslot
      cases hslot
    intro heq
    exact hne ((Function.update_of_ne hqp ..).symm.trans heq)
  ran q slot hq := by
    obtain ⟨-, rfl⟩ | ⟨-, hq⟩ := update_some_iff.1 hq
    · exact ⟨_, ⟨rfl, rfl, rfl, rfl, rfl, rfl, rfl⟩, .nil _⟩
    · exact h.ran q slot hq
  closed := h.closed

/-- An event finds its context and its block; when they are freed no event of theirs is left. -/
theorem Safe.handle (h : s.Safe) (hb : s.batch = some (p :: l)) (hp : p ≠ s.listener)
    (hs : s.handle p l ev = some r) : ∃ s', r = .ok s' ∧ s'.Safe := by
  have hnodup := List.nodup_cons.1 (h.nodup _ hb)
  obtain ⟨slot, hslot⟩ :=
    Option.ne_none_iff_exists'.1 ((h.batch _ hb p List.mem_cons_self).resolve_left hp)
  have hblock : s.clients slot.data = true :=
    (h.exact.clients_iff _).2 ⟨p, by rw [dataOf, hslot, Option.map_some]⟩
  have hrest : ∀ q ∈ l, q ≠ p ∧ (q = s.listener ∨ s.ctxs q ≠ none) := fun q hq =>
    ⟨fun heq => hnodup.1 (heq ▸ hq), h.batch _ hb q (List.mem_cons_of_mem p hq)⟩
  simp only [Server.handle, hslot, hblock, Bool.true_eq_false, if_false,
    Option.map_eq_some_iff] at hs
  obtain ⟨ctx, hio, rfl⟩ := hs
  have hran : Slot.Ran { slot with ctx := ctx, evs := slot.evs ++ [ev] } := by
    obtain ⟨ctx₀, hinit, hrun⟩ := h.ran p slot hslot
    exact ⟨ctx₀, hinit, hrun.append (.cons trivial hio (.nil ctx))⟩
  by_cases hopen : ctx.closed = none
  · rw [if_pos hopen]
    refine ⟨_, rfl,
      (h.exact.replace hslot { slot with ctx := ctx, evs := slot.evs ++ [ev] } rfl rfl
      hopen).of_batch _, fun m hm => ?_, fun m hm q hq => ?_, fun q slot' hq => ?_, h.closed⟩
    · cases hm
      exact hnodup.2
    · cases hm
      obtain ⟨hqp, hlive⟩ := hrest q hq
      exact hlive.imp_right fun hne heq => hne ((Function.update_of_ne hqp ..).symm.trans heq)
    · obtain ⟨-, rfl⟩ | ⟨-, hq⟩ := update_some_iff.1 hq
      · exact hran
      · exact h.ran q slot' hq
  · rw [if_neg hopen]
    obtain ⟨s', hs', hexact, hbatch, hlistener, hctxs, hclosed⟩ :=
      (h.exact.of_batch (some l)).closeClient hslot
        { slot with ctx := ctx, evs := slot.evs ++ [ev] } rfl rfl
    refine ⟨s', hs', hexact, fun m hm => ?_, fun m hm q hq => ?_, fun q slot' hq =>
      ?_, fun slot' hmem => ?_⟩
    · cases hbatch.symm.trans hm
      exact hnodup.2
    · cases hbatch.symm.trans hm
      obtain ⟨hqp, hlive⟩ := hrest q hq
      rw [hlistener, hctxs, Function.update_of_ne hqp]
      exact hlive
    · rw [hctxs] at hq
      exact h.ran q slot' (update_none_iff.1 hq).2
    · rw [hclosed] at hmem
      obtain hmem | hmem := List.mem_append.1 hmem
      · exact h.closed slot' hmem
      · rw [List.mem_singleton.1 hmem]
        exact ⟨hran, hopen⟩

theorem Safe.step (h : s.Safe) (hs : s.step a = some r) : ∃ s', r = .ok s' ∧ s'.Safe := by
  cases stepped_of_step hs with
  | wait hb hl => exact ⟨_, rfl, h.wait hl⟩
  | accept hb hf => exact ⟨_, rfl, h.accept hf⟩
  | again hb =>
    refine ⟨_, rfl, h.exact.of_batch _, fun m hm => ?_, fun m hm q hq => ?_, h.ran, h.closed⟩
    · cases hm
      exact (List.nodup_cons.1 (h.nodup _ hb)).2
    · cases hm
      exact h.batch _ hb q (List.mem_cons_of_mem _ hq)
  | event hb hp hs => exact h.handle hb hp hs
  | done hb =>
    exact ⟨_, rfl, h.exact.of_batch _, fun m hm => (by cases hm), fun m hm =>
    (by cases hm), h.ran, h.closed⟩

theorem safe_of_reach (h : machine.Reach r) : ∃ s, r = .ok s ∧ s.Safe := by
  refine h.invariant (I := fun r => ∃ s, r = .ok s ∧ s.Safe) ?_ ?_
  · rintro r ⟨ep, lf, ls, hne, rfl⟩
    exact ⟨_, rfl, .start hne⟩
  · rintro _ a r ⟨s, rfl, hsafe⟩ - hs
    exact hsafe.step hs

/-- In every run, with any number of clients and any events and results of system calls, no
context and no client is used or freed after it has been freed, and `del_epoll_ctx` never fails.
The open descriptors, the interest list and the blocks are those of the contexts in memory, and
the events that are left are of different ones of these. -/
theorem clients_exact (h : machine.Reach r) : ∃ s, r = .ok s ∧ s.Exact ∧ ∀ l, s.batch = some l →
    l.Nodup ∧ ∀ p ∈ l, p = s.listener ∨ s.ctxs p ≠ none := by
  obtain ⟨s, rfl, hsafe⟩ := safe_of_reach h
  exact ⟨s, rfl, hsafe.exact, fun l hl => ⟨hsafe.nodup l hl, hsafe.batch l hl⟩⟩

/-- Two clients; the first one is answered and leaves. -/
def visits : List Next :=
  [.wait [4], .accept 5 20 30 IoContext.accepted.data, .again, .done,
    .wait [5, 4], .event ⟨true, true, [.ok [7], .error EAGAIN], [.ok 1]⟩,
      .accept 6 21 31 IoContext.accepted.data, .again,
    .done, .wait [5], .event ⟨true, false, [.ok []], []⟩, .done]

theorem clients_exact_visits : ∃ s, machine.Reach (.ok s) ∧ s.fds = [6, 3, 4] ∧ s.Exact := by
  have hexec : machine.exec (.ok (start 3 4 2)) visits = some (.ok _) := rfl
  have hreach : machine.Reach (.ok _) := .of_exec ⟨3, 4, 2, by decide, rfl⟩ hexec
  obtain ⟨s, heq, hexact, -⟩ := clients_exact hreach
  cases heq
  exact ⟨_, hreach, rfl, hexact⟩

/-- A client is served as if it were alone: what it has been sent, and then what is in its
buffer, is what it has sent itself. -/
theorem echoes_own (h : machine.Reach (.ok s))
    (hslot : (∃ p, s.ctxs p = some slot) ∨ slot ∈ s.closed) :
    slot.Ran ∧ received slot.evs = slot.ctx.put ++ slot.ctx.data.pending := by
  obtain ⟨s', heq, hsafe⟩ := safe_of_reach h
  cases heq
  have hran : slot.Ran := by
    obtain ⟨p, hp⟩ | hmem := hslot
    · exact hsafe.ran p slot hp
    · exact (hsafe.closed slot hmem).1
  exact ⟨hran, hran.echo⟩

theorem echoes_own_visits :
    ∃ s, machine.Reach (.ok s) ∧ ∃ slot ∈ s.closed, slot.Ran ∧ received slot.evs = [7] ∧
    slot.ctx.put ++ slot.ctx.data.pending = [7] := by
  have hexec : machine.exec (.ok (start 3 4 2)) visits = some (.ok _) := rfl
  have hreach : machine.Reach (.ok _) := .of_exec ⟨3, 4, 2, by decide, rfl⟩ hexec
  obtain ⟨hran, hecho⟩ := echoes_own hreach (.inr List.mem_cons_self)
  exact ⟨_, hreach, _, List.mem_cons_self, hran, rfl, hecho ▸ rfl⟩

end

end Server

end Misc.TcpEcho
