import Misc.Yagw.Handshake

namespace Misc.Yagw
open Misc.Lib
set_option autoImplicit true

variable {t : Conn}

/-- What holds of the packet that waits to be handled. While `handle_login` or `handle` runs the
packet reader holds a complete packet and no worker reads; a packet that waits is on its way to
`mainproc` unless the connection is being closed. -/
structure Conn.Delivers (t : Conn) (g : Option PacketReader) : Prop where
  handling : t.main = .handleLogin ∨ t.main = .handle →
    t.c.pr.Complete ∧ ∀ i r, (t.workers i).pc ≠ .read r
  waiting : ∀ p, g = some p → p = t.c.pr ∧ p.Complete
  awaited : g ≠ none → t.main = .handleLogin ∨ t.main = .handle ∨ t.main.closing = true ∨
    ∃ i, t.Awaited (t.workers i).pc

/-- Every packet is handled exactly once in a run in which `busy` is kept while a packet
waits. -/
theorem handled_once (h : (connMachine n home).RunIf Conn.KeepsBusy .new as t) :
    ∃ g, ((connMachine n home).observe Conn.packetEvent .new as).foldlM
      oneAtATime none = some g ∧ t.Delivers g := by
  obtain ⟨g, hev, hx, pc, hh, hex, huniq⟩ := h.accepts
    (I := fun t g => t.Exclusive ∧ t.Handshake g) ⟨.new, .new⟩
    fun s a t g hI hok hs => by
      obtain ⟨g', hev, h⟩ := hI.2.step hI.1 hok hs
      exact ⟨g', hev, hI.1.step hs, h⟩
  refine ⟨g, hev, fun hm => ?_, fun p hp => ?_, fun hg => ?_⟩
  · have hm : t.main.handling = true := by rcases hm with hm | hm <;> rw [hm] <;> rfl
    refine ⟨hh.complete (hh.handling hm).1, fun i r hi => ?_⟩
    have hpc := huniq i (by rw [hi]; rfl)
    have hno := (hh.reading (by rw [← hpc, hi]; rfl)).2.1
    rw [hm] at hno
    cases hno
  · obtain ⟨rfl, hc⟩ := hh.pending p hp
    exact ⟨rfl, hc⟩
  · rcases hh.awaited hg with hm | hm | hm
    · cases hmain : t.main <;> simp_all [MainPc.handling]
    · exact .inr (.inr (.inl hm))
    · right; right; right
      by_cases ho : pc.owns = true
      · obtain ⟨i, rfl⟩ := hex ho
        exact ⟨i, hm⟩
      · rcases hm with hm | ⟨hr, hm | hm⟩
        · exact absurd (WorkerPc.owns_of_reading hm.1) ho
        · exact ⟨0, .inr ⟨hr, .inl hm⟩⟩
        · exact absurd (WorkerPc.owns_of_starting hm) ho

def emptyPacket (cmd : Nat) : List UInt8 := writePacket [] cmd 0 []

def workerSteps (k : Nat) : List Act := List.replicate k (.worker 0 .step)

def mainSteps (k : Nat) : List Act := List.replicate k (.main .step)

/-- The event loop enqueues the descriptor, the worker reads a login request and starts
`mainproc`, which answers it. -/
def logIn : List Act :=
  [.loop (.epoll ⟨true, true, false, false, false⟩)] ++ List.replicate 4 (.loop .step) ++
    [.loop (.room true), .worker 0 .popWq] ++ workerSteps 6 ++
    [.worker 0 (.read (.data (emptyPacket cmdLogin)))] ++ workerSteps 13 ++
    [.main (.recv .ravail), .main (.login (some (true, [])))] ++ mainSteps 3 ++
    [.main (.recv .wavail), .main (.write (.wrote packetHeaderLen))] ++ mainSteps 5

def takeGq : List Act := workerSteps 2 ++ [.worker 0 .popGq] ++ workerSteps 6

def readPing : List Act :=
  takeGq ++ [.worker 0 (.read (.data (emptyPacket cmdPing)))] ++ workerSteps 9

def ping : List Act := logIn ++ readPing ++ [.main (.recv .ravail)] ++ mainSteps 2

instance (t : Conn) : (a : Act) → Decidable (t.KeepsBusy a)
  | .main _ => inferInstanceAs (Decidable (_ → ¬ _))
  | .worker .. | .loop _ | .post _ => inferInstanceAs (Decidable True)

theorem handled_once_ping : ∃ t g, (connMachine 1 0).RunIf Conn.KeepsBusy .new ping t ∧
    ((connMachine 1 0).observe Conn.packetEvent .new ping).length = 4 ∧
    ((connMachine 1 0).observe Conn.packetEvent .new ping).foldlM oneAtATime none = some g ∧
    t.Delivers g := by
  have hrun : ((connMachine 1 0).execIf Conn.KeepsBusy .new ping).isSome := by decide
  obtain ⟨t, ht⟩ := Option.isSome_iff_exists.1 hrun
  obtain ⟨g, hg⟩ := handled_once (.of_execIf ht)
  exact ⟨t, g, .of_execIf ht, by decide, hg⟩

/-- A message is delivered while a packet waits, so `mainproc` clears `busy` and the worker
posts the packet again. -/
def pingTwice : List Act :=
  logIn ++ readPing ++ [.post [0], .main (.recv .deliver), .main (.write (.wrote 1))] ++
    mainSteps 5 ++ takeGq ++ workerSteps 3 ++ [.main (.recv .ravail), .main .step] ++
    workerSteps 1 ++ mainSteps 1 ++ [.main (.write (.wrote packetHeaderLen))] ++ mainSteps 5 ++
    [.main (.recv .ravail), .main .step]

/-- The second call of `handle` finds no packet and panics. -/
theorem handled_twice : ∃ t, (connMachine 1 0).Run .new pingTwice t ∧ t.main = .panicked ∧
    ((connMachine 1 0).observe Conn.packetEvent .new pingTwice).foldlM oneAtATime none =
      none := by
  have hrun : ((connMachine 1 0).exec .new pingTwice).map (·.main) = some .panicked := by
    decide +kernel
  obtain ⟨t, ht, hm⟩ := Option.map_eq_some_iff.1 hrun
  exact ⟨t, .of_exec ht, hm, by decide +kernel⟩

end Misc.Yagw
