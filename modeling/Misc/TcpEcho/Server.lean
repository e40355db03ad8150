import Misc.TcpEcho.Client
import Mathlib

namespace Misc.TcpEcho
open Misc.Lib
set_option autoImplicit true

/-- An `io_context` of a client in memory, with the address of its `struct client` and the
events handled for it. -/
structure Slot where
  fd : Nat
  data : Nat
  ctx : IoContext
  evs : List Event

/-- A use of memory that has been freed, a block that is freed twice, and `FATAL` in
`del_epoll_ctx`. -/
inductive Failure
  | dangling
  | freed
  | fatal

/-- The whole program: the open descriptors, the interest list, the blocks of clients and the
contexts in memory, and what is left of the events that `epoll_wait` has returned. The contexts
that have been freed are in `closed`. -/
structure Server where
  epfd : Nat
  lfd : Nat
  listener : Nat
  fds : List Nat
  epoll : Nat → Option Nat
  clients : Nat → Bool
  ctxs : Nat → Option Slot
  batch : Option (List Nat)
  closed : List Slot

/-- What comes next, with the results of the system calls: `epoll_wait`, `accept4` with the two
addresses that `malloc` gives and what is in the block, `accept4` with `EAGAIN`, an event of a
client, and the end of the events. -/
inductive Next
  | wait (fds : List Nat)
  | accept (cfd p b : Nat) (c : Client)
  | again
  | event (ev : Event)
  | done

namespace Server

def start (epfd lfd listener : Nat) : Server :=
  ⟨epfd, lfd, listener, [epfd, lfd], fun fd => if fd = lfd then some listener
    else none, fun _ => false, fun _ => none, none, []⟩

/-- `handle_new_client` and `add_epoll_ctx`. -/
def handleNewClient (s : Server) (cfd p b : Nat) (c : Client) : Server :=
  { s with
    fds := cfd :: s.fds
    epoll := Function.update s.epoll cfd (some p)
    clients := Function.update s.clients b true
    ctxs := Function.update s.ctxs p (some
      ⟨cfd, b,
        { data := c.reset, prd := false, pwr := false, got := [], put := [], closed := none },
        []⟩) }

/-- The kernel and the allocator give what is not in use. -/
def Fresh (s : Server) (cfd p b : Nat) : Prop :=
  cfd ∉ s.fds ∧ p ≠ s.listener ∧ (s.ctxs p).isNone ∧ s.clients b = false

instance (s : Server) (cfd p b : Nat) : Decidable (s.Fresh cfd p b) :=
  inferInstanceAs (Decidable (_ ∧ _))

/-- `close_client`, with `del_epoll_ctx`. -/
def closeClient (s : Server) (p : Nat) (slot : Slot) : Except Failure Server :=
  if s.clients slot.data = false then .error .freed
  else if (s.epoll slot.fd).isNone then .error .fatal
  else .ok { s with
    fds := s.fds.filter (· ≠ slot.fd)
    epoll := Function.update s.epoll slot.fd none
    clients := Function.update s.clients slot.data false
    ctxs := Function.update s.ctxs p none
    closed := s.closed ++ [slot] }

def handle (s : Server) (p : Nat) (batch : List Nat) (ev : Event) :
    Option (Except Failure Server) :=
  match s.ctxs p with
  | none => some (.error .dangling)
  | some slot =>
    if s.clients slot.data = false then some (.error .dangling)
    else (slot.ctx.processIo ev).map fun ctx =>
      let slot := { slot with ctx := ctx, evs := slot.evs ++ [ev] }
      if ctx.closed = none then
        .ok { s with ctxs := Function.update s.ctxs p (some slot), batch := some batch }
      else { s with batch := some batch }.closeClient p slot

def step (s : Server) (a : Next) : Option (Except Failure Server) :=
  match a, s.batch with
  | .wait fds, none =>
    if fds.Nodup ∧ fds.length ≤ 64 ∧ ∀ fd ∈ fds, (s.epoll fd).isSome then
      some (.ok { s with batch := some (fds.filterMap s.epoll) })
    else none
  | .accept cfd p b c, some (q :: _) =>
    if q = s.listener ∧ s.Fresh cfd p b then some (.ok (s.handleNewClient cfd p b c)) else none
  | .again, some (q :: batch) =>
    if q = s.listener then some (.ok { s with batch := some batch }) else none
  | .event ev, some (p :: batch) => if p = s.listener then none else s.handle p batch ev
  | .done, some [] => some (.ok { s with batch := none })
  | _, _ => none

inductive Stepped (s : Server) : Next → Except Failure Server → Prop
  | wait {l : List Nat} (hb : s.batch = none) (hl : l.Nodup) :
    Stepped s (.wait l) (.ok { s with batch := some (l.filterMap s.epoll) })
  | accept {l : List Nat} (hb : s.batch = some l) (hf : s.Fresh cfd p b) :
    Stepped s (.accept cfd p b c) (.ok (s.handleNewClient cfd p b c))
  | again {l : List Nat} (hb : s.batch = some (q :: l)) :
      Stepped s .again (.ok { s with batch := some l })
  | event {l : List Nat} (hb : s.batch = some (p :: l)) (hp : p ≠ s.listener)
      (hs : s.handle p l ev = some r) :
    Stepped s (.event ev) r
  | done (hb : s.batch = some []) : Stepped s .done (.ok { s with batch := none })

theorem stepped_of_step {s : Server} (hs : s.step a = some r) : Stepped s a r := by
  unfold step at hs
  split at hs
  next hb =>
    obtain ⟨hl, hs⟩ := Option.ite_none_right_eq_some.1 hs
    cases hs
    exact .wait hb hl.1
  next hb =>
    obtain ⟨hf, hs⟩ := Option.ite_none_right_eq_some.1 hs
    cases hs
    exact .accept hb hf.2
  next hb =>
    cases (Option.ite_none_right_eq_some.1 hs).2
    exact .again hb
  next hb =>
    obtain ⟨hp, hs⟩ := Option.ite_none_left_eq_some.1 hs
    exact .event hb hp hs
  next hb =>
    cases hs
    exact .done hb
  next => cases hs

/-- The program ends with the first failure. -/
def machine : Machine (Except Failure Server) Next where
  init r := ∃ epfd lfd listener, epfd ≠ lfd ∧ r = .ok (start epfd lfd listener)
  step r a :=
    match r with
    | .error _ => none
    | .ok s => s.step a

end Server

end Misc.TcpEcho
