import Misc.Yagw.Buffering

namespace Misc.Yagw
open Misc.Lib
set_option autoImplicit true

/-- A call of `handle_login`, with what the authentication answered, or of `handle`. -/
inductive ServeEvent
  | handleLogin (pr : PacketReader) (res : Option (Bool × List UInt8))
  | handle (pr : PacketReader)
  deriving DecidableEq, Repr

def Conn.serveEvent (t : Conn) : Act → Option ServeEvent
  | .main a =>
    match t.main, a with
    | .handleLogin, .login res => some (.handleLogin t.c.pr res)
    | .handle, _ => some (.handle t.c.pr)
    | _, _ => none
  | _ => none

/-- The packet is a login request that the authentication accepted. -/
def ServeEvent.loggedIn : ServeEvent → Bool
  | .handleLogin pr (some (true, _)) => pr.getHeader.1 == cmdLogin
  | _ => false

def ServeEvent.handled : ServeEvent → Option PacketReader
  | .handle pr => some pr
  | .handleLogin .. => none

/-- `handle` is called on a packet only if the first packet was an accepted login request. -/
def OnlyLoggedIn (es : List ServeEvent) : Prop :=
  ∀ pr, .handle pr ∈ es → ∃ e, es.head? = some e ∧ e.loggedIn = true

/-- The authentication does not refuse a login request, unless with an error. -/
def Conn.Admits (t : Conn) : Act → Prop
  | .main (.login (some (ok, _))) =>
    t.main = .handleLogin → t.c.pr.getHeader.1 = cmdLogin → ok = true
  | _ => True

instance (t : Conn) : (a : Act) → Decidable (t.Admits a)
  | .main (.login (some _)) => inferInstanceAs (Decidable (_ → _ → _))
  | .main (.login none) | .main .step | .main (.recv _) | .main (.write _) | .worker .. | .loop _
  | .post _ => inferInstanceAs (Decidable True)

/-- What an observer remembers of the first packet, once there is one: whether it was an accepted
login request. It allows calls of `handle` only then. -/
def loginFirst : Option Bool → ServeEvent → Option (Option Bool)
  | none, .handleLogin pr res => some (some (ServeEvent.handleLogin pr res).loggedIn)
  | some true, .handle _ => some (some true)
  | _, _ => none

def MainPc.waiting : MainPc → Bool
  | .out | .login | .handleLogin => true
  | _ => false

variable {es : List ServeEvent} {s s' : Shared} {t t' : Conn}

theorem onlyLoggedIn_of_loginFirst (h : es.foldlM loginFirst none = some g) :
    OnlyLoggedIn es := by
  intro pr hpr
  cases es with
  | nil => cases hpr
  | cons e es =>
    obtain ⟨g₁, hg₁, h⟩ := Option.bind_eq_some_iff.1 h
    cases e with
    | handle => cases hg₁
    | handleLogin pr₁ res =>
      cases hg₁
      refine ⟨_, rfl, ?_⟩
      cases hin : (ServeEvent.handleLogin pr₁ res).loggedIn with
      | true => rfl
      | false =>
        rw [hin] at h
        cases es with
        | nil => simp at hpr
        | cons e es => cases h

/-- Apart from the login, `mainproc` does not leave the place where it is: before the first
packet, in its loop or closing the connection. -/
theorem Shared.mainproc_waiting (hs : s.mainproc a = some s') (hm : s.main ≠ .handleLogin) :
    (s'.main.waiting = true → s.main.waiting = true) ∧
    (s.main.waiting = true → s'.main.waiting = true ∨ s'.main.closing = true) ∧
    (s.main.closing = true → s'.main.closing = true) := by
  cases hmain : s.main <;> simp only [mainproc, hmain, reduceCtorEq, Option.some.injEq] at hs
  all_goals grind [select.eq_def, flushWbuf.eq_def, flushed,
    handleDone.eq_def, mainClosing.eq_def, MainPc.waiting, MainPc.closing]

/-- The observer's memory while the connection goroutine waits, works or closes the
connection. -/
structure Conn.Served (t : Conn) (g : Option Bool) : Prop where
  started : t.Started
  waiting : t.main.waiting = true → g = none
  serving : t.main.waiting = false → t.main.closing = false → g = some true

theorem Conn.Served.new : Conn.new.Served none := ⟨.new, fun _ => rfl, fun h => by cases h⟩

/-- A login that is not refused is accepted, or the connection is closed. -/
theorem Shared.mainproc_login (hm : s.main = .handleLogin) (hs : s.mainproc a = some s') :
    ∃ res, a = .login res ∧ s'.main.waiting = false ∧
      (s'.main.closing = false → s.c.pr.getHeader.1 = cmdLogin ∧ ∃ ok data,
        res = some (ok, data)) := by
  simp only [mainproc, hm] at hs
  split at hs
  · next res =>
    cases hs
    refine ⟨res, rfl, ?_⟩
    cases hres : s.ctx.handleLogin s.c.pr res with
    | none => exact ⟨rfl, fun hc => by cases hc⟩
    | some o =>
      simp only [Client.handleLogin, Option.ite_none_right_eq_some] at hres
      obtain ⟨hcmd, hres⟩ := hres
      obtain ⟨⟨ok, data⟩, rfl, -⟩ := Option.map_eq_some_iff.1 hres
      exact ⟨rfl, fun _ => ⟨hcmd, ok, data, rfl⟩⟩
  · cases hs

theorem Conn.Served.main (h : t.Served g) (hok : t.Admits (.main a)) (hst : t'.Started)
    (hs : t.mainproc a = some t'.toShared) :
    ∃ g', (t.serveEvent (.main a)).toList.foldlM loginFirst g = some g' ∧ t'.Served g' := by
  by_cases hm : t.main = .handleLogin
  · obtain ⟨res, rfl, hw, hlogin⟩ := Shared.mainproc_login hm hs
    obtain rfl := h.waiting (by rw [hm]; rfl)
    refine ⟨some (ServeEvent.handleLogin t.c.pr res).loggedIn, by
      simp [serveEvent, hm, loginFirst],
      hst, fun hw' => absurd (hw.symm.trans hw') (by simp), fun _ hc => ?_⟩
    obtain ⟨hcmd, ok, data, rfl⟩ := hlogin hc
    obtain rfl : ok = true := hok hm hcmd
    simp [ServeEvent.loggedIn, hcmd]
  · obtain ⟨hback, hforth, hclosing⟩ := Shared.mainproc_waiting hs hm
    refine ⟨g, ?_, hst, fun hw => h.waiting (hback hw), fun hw hc => h.serving ?_ ?_⟩
    · by_cases hh : t.main = .handle
      · obtain rfl := h.serving (by rw [hh]; rfl) (by rw [hh]; rfl)
        simp [serveEvent, hh, loginFirst]
      · have hev : t.serveEvent (.main a) = none := by
          simp only [serveEvent]
          split <;> simp_all
        rw [hev]
        rfl
    · apply Bool.eq_false_iff.2
      intro hw'
      rcases hforth hw' with hf | hf
      · rw [hw] at hf
        cases hf
      · rw [hc] at hf
        cases hf
    · apply Bool.eq_false_iff.2
      intro hc'
      rw [hclosing hc'] at hc
      cases hc

theorem Conn.Served.step (h : t.Served g) (hok : t.Admits a) (hs : t.step n home a = some t') :
    ∃ g', (t.serveEvent a).toList.foldlM loginFirst g = some g' ∧ t'.Served g' := by
  have hst := h.started.step hs
  cases Conn.step_main hs with
  | main hm => exact h.main hok hst hm
  | start hg ht =>
    obtain rfl := h.waiting (by rw [h.started.1 hg]; rfl)
    refine ⟨none, rfl, hst, fun _ => rfl, fun hw => ?_⟩
    rw [ht.1] at hw
    cases hw
  | aside ha ht =>
    have hev : t.serveEvent a = none := by
      cases a with
      | main m => exact absurd rfl (ha m)
      | worker | loop | post => rfl
    rw [hev]
    exact ⟨g, rfl, hst, ht.1 ▸ h.waiting, ht.1 ▸ h.serving⟩

/-- In a run in which no login request is refused only accepted clients are served. -/
theorem only_logged_in (h : (connMachine n home).RunIf Conn.Admits .new as t) :
    OnlyLoggedIn ((connMachine n home).observe Conn.serveEvent .new as) := by
  obtain ⟨g, hg, -⟩ := h.accepts (I := Conn.Served) .new fun _ _ _ _ hI hok hs => hI.step hok hs
  exact onlyLoggedIn_of_loginFirst hg

/-- An accepted client sends a ping. -/
theorem only_logged_in_ping : ∃ t, (connMachine 1 0).RunIf Conn.Admits .new ping t ∧
    ((connMachine 1 0).observe Conn.serveEvent .new ping).length = 2 ∧
    OnlyLoggedIn ((connMachine 1 0).observe Conn.serveEvent .new ping) := by
  have hrun : ((connMachine 1 0).execIf Conn.Admits .new ping).isSome := by decide
  obtain ⟨t, ht⟩ := Option.isSome_iff_exists.1 hrun
  exact ⟨t, .of_execIf ht, by decide, only_logged_in (.of_execIf ht)⟩

/-- The login request is refused, and the client sends a ping. -/
def refusedPing : List Act :=
  logIn.take 28 ++ [.main (.login (some (false, messageLoginResp false)))] ++ mainSteps 1 ++
    [.main (.recv .wavail), .main (.write (.wrote 24))] ++ mainSteps 5 ++ readPing ++
    [.main (.recv .ravail), .main .step]

/-- `mainproc` answers the refused login and goes on to its loop, where it handles the ping. -/
theorem refused_served : ∃ t, (connMachine 1 0).Run .new refusedPing t ∧
    ¬ OnlyLoggedIn ((connMachine 1 0).observe Conn.serveEvent .new refusedPing) := by
  have hrun : ((connMachine 1 0).exec .new refusedPing).isSome := by decide +kernel
  obtain ⟨t, ht⟩ := Option.isSome_iff_exists.1 hrun
  have hhead : ((connMachine 1 0).observe Conn.serveEvent .new refusedPing).head?.map
      ServeEvent.loggedIn = some false := by decide +kernel
  have hpr : ∃ e ∈ (connMachine 1 0).observe Conn.serveEvent .new refusedPing,
      e.handled.isSome := by decide +kernel
  refine ⟨t, .of_exec ht, fun h => ?_⟩
  obtain ⟨e, he, hp⟩ := hpr
  cases e with
  | handleLogin => cases hp
  | handle pr =>
    obtain ⟨e₁, he₁, hin⟩ := h pr he
    rw [he₁] at hhead
    cases hin.symm.trans (Option.some.inj hhead)

end Misc.Yagw
