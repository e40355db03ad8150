import Misc.Lib.Tables
import Misc.Tcpproxy.Server

namespace Misc.Tcpproxy
open Misc.Lib
set_option autoImplicit true

namespace Server

/-- The context at `c` is in memory and has not been shut down. -/
def Live (s : Server) (c : Nat) (conn : Conn) : Prop :=
  s.ctxs c = some conn ∧ conn.ctx.bad = false

/-- Who owns the descriptors and the boxes. -/
structure Placed (s : Server) : Prop where
  listen : s.epfd ≠ s.listen_fd
  open_iff : ∀ fd, fd ∈ s.fds ↔ fd = s.epfd ∨ fd = s.listen_fd ∨
    ∃ c conn, s.ctxs c = some conn ∧ fd ∈ conn.fds
  nodup : ∀ c conn, s.ctxs c = some conn → ([s.epfd, s.listen_fd] ++ conn.fds).Nodup
  apart : ∀ c c' conn conn', s.ctxs c = some conn → s.ctxs c' = some conn' → c ≠ c' →
    conn.fds.Disjoint conn'.fds
  epoll_iff : ∀ fd p, s.epoll fd = some p ↔
    fd = s.listen_fd ∧ p = 0 ∨ ∃ c conn who, s.Live c conn ∧ fd = conn.fd who ∧ p = conn.pd who
  pds_iff : ∀ p pd, s.pds p = some pd ↔ ∃ conn, s.Live pd.ctx conn ∧ p = conn.pd pd.who
  zero : s.pds 0 = none

/-- The references to contexts are those of the boxes and those that the loop has in `held`. -/
structure Exact (s : Server) (held : List Nat) : Prop extends s.Placed where
  strong : ∀ c conn, s.ctxs c = some conn →
    conn.strong = (if conn.ctx.bad then 0 else 2) + held.count c
  strong_pos : ∀ c conn, s.ctxs c = some conn → 0 < conn.strong
  held : ∀ c ∈ held, s.ctxs c ≠ none

end Server

section
variable {s s' : Server} {c c' : Nat} {conn conn' : Conn} {held : List Nat} {fd p : Nat}
  {pd : PollDesp} {who : Owner}
  {ctx ctx' : Context} {q q' : Proxy} {events : Events} {io io' : Splices}
  {res : SysResult Unit} {maxSize : Nat}

theorem Context.copyFrom_bad (h : ctx.copyFrom maxSize io = some (res, ctx')) :
    ctx'.bad = ctx.bad := by
  rw [copyFrom] at h
  split_ifs at h
  · cases h
    rfl
  · obtain ⟨⟨res', buf⟩, -, heq⟩ := Option.map_eq_some_iff.1 h
    cases heq
    rfl

theorem Context.copyTo_bad (h : ctx.copyTo maxSize io = some (res, ctx')) :
    ctx'.bad = ctx.bad := by
  rw [copyTo] at h
  split_ifs at h
  · cases h
    rfl
  · obtain ⟨⟨res', buf⟩, -, heq⟩ := Option.map_eq_some_iff.1 h
    cases heq
    rfl

theorem Proxy.handle_bad (h : Proxy.handle maxSize q who events io io' = some q') :
    q'.ctx.bad = q.ctx.bad := by
  obtain ⟨⟨res, ctx⟩, hin, h⟩ := Option.bind_eq_some_iff.1 h
  obtain ⟨⟨res', ctx'⟩, hout, heq⟩ := Option.map_eq_some_iff.1 h
  have h₁ : ctx.bad = q.ctx.bad := by
    rw [onInput] at hin
    split_ifs at hin
    · exact Context.copyFrom_bad hin
    · exact Context.copyTo_bad hin
    · cases hin
      rfl
  have h₂ : ctx'.bad = ctx.bad := by
    rw [onOutput] at hout
    split_ifs at hout
    · exact Context.copyFrom_bad hout
    · exact Context.copyTo_bad hout
    · cases hout
      rfl
  rw [← heq]
  exact h₂.trans h₁

/-- What of a context stays as long as it is in use. -/
def Conn.key (conn : Conn) : List Nat × (Owner → Nat) × (Owner → Nat) × Bool :=
  (conn.fds, conn.fd, conn.pd, conn.ctx.bad)

theorem Conn.fd_mem (conn : Conn) (who : Owner) : conn.fd who ∈ conn.fds := by
  cases who <;> simp [Conn.fd, Conn.fds]

theorem Conn.fd_inj (h : conn.fds.Nodup) (heq : conn.fd who = conn.fd who') : who = who' := by
  have hne : conn.client_fd ≠ conn.backend_fd := fun heq => by simp [Conn.fds, heq] at h
  cases who <;> cases who' <;> first | rfl | exact absurd heq hne | exact absurd heq.symm hne

namespace Server

theorem Exact.start {ep ls : Nat} (h : ep ≠ ls) : Exact (start ep ls) [] where
  listen := h
  open_iff fd := by simp [Server.start]
  nodup c conn hc := by cases hc
  apart c c' conn conn' hc := by cases hc
  epoll_iff fd p := by
    refine ⟨fun hp => .inl ?_, ?_⟩
    · simpa [Server.start, eq_comm] using hp
    · rintro (⟨rfl, rfl⟩ | ⟨_, _, _, ⟨hc, -⟩, -⟩)
      · exact if_pos rfl
      · cases hc
  pds_iff p pd := by
    refine ⟨fun hp => (by cases hp), ?_⟩
    rintro ⟨_, ⟨hc, -⟩, -⟩
    cases hc
  zero := rfl
  strong c conn hc := by cases hc
  strong_pos c conn hc := by cases hc
  held c hc := (List.not_mem_nil hc).elim

theorem Live.unique (hc : s.Live c conn) (hc' : s.Live c conn') : conn = conn' :=
  Option.some.inj (hc.1.symm.trans hc'.1)

theorem Live.ne_of_bad (hc' : s.Live c' conn') (hc : s.ctxs c = some conn)
    (hbad : conn.ctx.bad = true) : c' ≠ c := by
  rintro rfl
  have heq := Option.some.inj (hc.symm.trans hc'.1)
  rw [heq, hc'.2] at hbad
  cases hbad

namespace Placed

theorem pd_live (h : s.Placed) (hc : s.Live c conn) (who : Owner) :
    s.pds (conn.pd who) = some ⟨who, c⟩ :=
  (h.pds_iff _ _).2 ⟨conn, hc, rfl⟩

theorem epoll_live (h : s.Placed) (hc : s.Live c conn) (who : Owner) :
    s.epoll (conn.fd who) = some (conn.pd who) :=
  (h.epoll_iff _ _).2 (.inr ⟨c, conn, who, hc, rfl, rfl⟩)

/-- A descriptor belongs to one context. -/
theorem conn_unique (h : s.Placed) (hc : s.ctxs c = some conn) (hc' : s.ctxs c' = some conn')
    (hfd : fd ∈ conn.fds)
    (hfd' : fd ∈ conn'.fds) : c = c' := by
  by_contra hne
  exact h.apart c c' conn conn' hc hc' hne hfd hfd'

theorem pd_inj (h : s.Placed) (hc : s.Live c conn) (heq : conn.pd who = conn.pd who') :
    who = who' := by
  have hpd := h.pd_live hc who
  rw [heq, h.pd_live hc who', Option.some.injEq] at hpd
  exact (congrArg PollDesp.who hpd).symm

theorem listen_ne (h : s.Placed) (hc : s.ctxs c = some conn) (who : Owner) :
    s.listen_fd ≠ conn.fd who := fun heq =>
  (List.nodup_append.1 (h.nodup c conn hc)).2.2 _ (by simp) _ (conn.fd_mem who) heq

theorem fd_ne {d : Nat} (h : s.Placed) (hd : s.ctxs d = some conn')
    (hc : s.ctxs c = some conn) (hne : d ≠ c)
    (who who' : Owner) : conn'.fd who ≠ conn.fd who' := fun heq =>
  h.apart d c conn' conn hd hc hne (conn'.fd_mem who) (heq ▸ conn.fd_mem who')

theorem pd_ne {d : Nat} (h : s.Placed) (hd : s.Live d conn') (hc : s.Live c conn)
    (hne : d ≠ c) (who who' : Owner) : conn'.pd who ≠ conn.pd who' := fun heq => by
  have hpd := h.pd_live hd who
  rw [heq, h.pd_live hc who', Option.some.injEq] at hpd
  exact hne (congrArg PollDesp.ctx hpd).symm

end Placed

/-- The contexts of the two states differ at most in their counts and buffers. -/
def SameKeys (s s' : Server) : Prop := ∀ c, (s'.ctxs c).map Conn.key = (s.ctxs c).map Conn.key

theorem SameKeys.symm (h : SameKeys s s') : SameKeys s' s := fun c => (h c).symm

theorem SameKeys.ctxs (h : SameKeys s s') (hc : s.ctxs c = some conn) :
    ∃ conn', s'.ctxs c = some conn' ∧
    conn'.fds = conn.fds ∧ conn'.fd = conn.fd ∧ conn'.pd = conn.pd ∧
      conn'.ctx.bad = conn.ctx.bad := by
  have hkey := h c
  rw [hc, Option.map_some, Option.map_eq_some_iff] at hkey
  obtain ⟨conn', hc', hkey⟩ := hkey
  simp only [Conn.key, Prod.mk.injEq] at hkey
  exact ⟨conn', hc', hkey⟩

theorem SameKeys.owned (h : SameKeys s s') : (∃ c conn, s.ctxs c = some conn ∧ fd ∈ conn.fds) →
    ∃ c conn, s'.ctxs c = some conn ∧ fd ∈ conn.fds := by
  rintro ⟨c, conn, hc, hfd⟩
  obtain ⟨conn', hc', heq, -⟩ := h.ctxs hc
  exact ⟨c, conn', hc', heq ▸ hfd⟩

theorem SameKeys.live (h : SameKeys s s') (hc : s.Live c conn) :
    ∃ conn', s'.Live c conn' ∧ conn'.fd = conn.fd ∧ conn'.pd = conn.pd := by
  obtain ⟨conn', hc', -, hfd, hpd, hbad⟩ := h.ctxs hc.1
  exact ⟨conn', ⟨hc', hbad.trans hc.2⟩, hfd, hpd⟩

theorem SameKeys.registered (h : SameKeys s s') :
    (∃ c conn who, s.Live c conn ∧ fd = conn.fd who ∧ p = conn.pd who) →
      ∃ c conn who, s'.Live c conn ∧ fd = conn.fd who ∧ p = conn.pd who := by
  rintro ⟨c, conn, who, hc, hfd, hp⟩
  obtain ⟨conn', hc', heqfd, heqpd⟩ := h.live hc
  exact ⟨c, conn', who, hc', heqfd ▸ hfd, heqpd ▸ hp⟩

theorem SameKeys.boxed (h : SameKeys s s') : (∃ conn, s.Live c conn ∧ p = conn.pd who) →
    ∃ conn, s'.Live c conn ∧ p = conn.pd who := by
  rintro ⟨conn, hc, hp⟩
  obtain ⟨conn', hc', -, heqpd⟩ := h.live hc
  exact ⟨conn', hc', heqpd ▸ hp⟩

namespace Placed

theorem of_same (h : s.Placed) (hepfd : s'.epfd = s.epfd) (hlisten : s'.listen_fd = s.listen_fd)
    (hfds : s'.fds = s.fds)
    (hepoll : s'.epoll = s.epoll) (hpds : s'.pds = s.pds) (hctxs : SameKeys s s') :
    s'.Placed where
  listen := by
    rw [hepfd, hlisten]
    exact h.listen
  open_iff fd := by
    rw [hepfd, hlisten, hfds, h.open_iff]
    exact or_congr_right (or_congr_right ⟨hctxs.owned, hctxs.symm.owned⟩)
  nodup c conn hc := by
    obtain ⟨conn', hc', heq, -⟩ := hctxs.symm.ctxs hc
    rw [hepfd, hlisten, ← heq]
    exact h.nodup c conn' hc'
  apart c d conn conn' hc hd hne := by
    obtain ⟨conn₀, hc₀, heq, -⟩ := hctxs.symm.ctxs hc
    obtain ⟨conn₁, hd₁, heq', -⟩ := hctxs.symm.ctxs hd
    rw [← heq, ← heq']
    exact h.apart c d conn₀ conn₁ hc₀ hd₁ hne
  epoll_iff fd p := by
    rw [hlisten, hepoll, h.epoll_iff]
    exact or_congr_right ⟨hctxs.registered, hctxs.symm.registered⟩
  pds_iff p pd := by
    rw [hpds, h.pds_iff]
    exact ⟨hctxs.boxed, hctxs.symm.boxed⟩
  zero := by
    rw [hpds]
    exact h.zero

end Placed

@[simp] theorem setConn_self (s : Server) (c : Nat) (conn : Conn) :
    (s.setConn c conn).ctxs c = some conn :=
  Function.update_self ..

theorem setConn_of_ne {d : Nat} (h : d ≠ c) (s : Server) (conn : Conn) :
    (s.setConn c conn).ctxs d = s.ctxs d :=
  Function.update_of_ne h ..

theorem sameKeys_setConn (hc : s.ctxs c = some conn) (hkey : conn'.key = conn.key) :
    SameKeys s (s.setConn c conn') := by
  intro d
  by_cases hd : d = c
  · rw [hd, setConn_self, hc, Option.map_some, Option.map_some, hkey]
  · rw [setConn_of_ne hd]

theorem Exact.replace (h : s.Exact held) (hc : s.ctxs c = some conn)
    (hkey : conn'.key = conn.key)
    (hstrong : conn'.strong = (if conn.ctx.bad then 0 else 2) + held'.count c)
    (hpos : 0 < conn'.strong)
    (hother : ∀ d, d ≠ c → held'.count d = held.count d) : (s.setConn c conn').Exact held' where
  toPlaced := h.toPlaced.of_same rfl rfl rfl rfl rfl (sameKeys_setConn hc hkey)
  strong d conn₀ hd := by
    by_cases hdc : d = c
    · rw [hdc, setConn_self, Option.some.injEq] at hd
      have hbad : conn'.ctx.bad = conn.ctx.bad := congrArg (fun k => k.2.2.2) hkey
      rw [← hd, hdc, hbad, hstrong]
    · rw [setConn_of_ne hdc] at hd
      rw [h.strong d conn₀ hd, hother d hdc]
  strong_pos d conn₀ hd := by
    by_cases hdc : d = c
    · rw [hdc, setConn_self, Option.some.injEq] at hd
      exact hd ▸ hpos
    · rw [setConn_of_ne hdc] at hd
      exact h.strong_pos d conn₀ hd
  held d hd := by
    by_cases hdc : d = c
    · rw [hdc, setConn_self]
      exact Option.some_ne_none _
    · rw [setConn_of_ne hdc]
      rw [← List.count_pos_iff, hother d hdc, List.count_pos_iff] at hd
      exact h.held d hd

def shut (s : Server) (c : Nat) (conn : Conn) : Server :=
  { s with
    epoll :=
      Function.update (Function.update s.epoll (conn.fd .client) none) (conn.fd .backend) none
    pds :=
      Function.update (Function.update s.pds (conn.pd .client) none) (conn.pd .backend) none
  }.setConn c
    { conn with
      ctx := conn.ctx.shutdown
      strong := conn.strong - 2
      acts := conn.acts ++ [Act.endBatch] }

theorem epollDel_eq (h : s.epoll fd = some p) :
    s.epollDel fd = .ok { s with epoll := Function.update s.epoll fd none } :=
  if_pos (by rw [h]; rfl)

theorem dropBox_eq (hp : s.pds p = some ⟨who, c⟩) (hc : s.ctxs c = some conn)
    (hs : conn.strong ≠ 1) :
    s.dropBox p = .ok ({ s with pds := Function.update s.pds p none }.setConn c
      { conn with strong := conn.strong - 1 }) := by
  rw [dropBox, hp]
  simp only [dropRc, hc, if_neg hs]

theorem Exact.shutdown_eq (h : s.Exact held) (hc : s.Live c conn) (hmem : c ∈ held) :
    s.shutdown c = .ok (s.shut c conn) := by
  have hstrong := h.strong c conn hc.1
  have hcount := List.count_pos_iff.2 hmem
  rw [if_neg (by simp [hc.2])] at hstrong
  have hfd : conn.fd .backend ≠ conn.fd .client := fun heq => by
    have heq := Conn.fd_inj (h.nodup c conn hc.1).of_append_right heq
    cases heq
  have hpd : conn.pd .backend ≠ conn.pd .client := fun heq => by
    have heq := h.pd_inj hc heq
    cases heq
  have h₁ := epollDel_eq (h.epoll_live hc .client)
  have h₂ :=
    epollDel_eq (s := { s with epoll := Function.update s.epoll (conn.fd .client) none })
    ((Function.update_of_ne hfd ..).trans (h.epoll_live hc .backend))
  have h₃ := dropBox_eq (s := { s with
      epoll :=
        Function.update (Function.update s.epoll (conn.fd .client) none)
        (conn.fd .backend) none })
    (h.pd_live hc .client) hc.1 (by omega)
  have h₄ := dropBox_eq (s := { s with
      epoll :=
        Function.update (Function.update s.epoll (conn.fd .client) none) (conn.fd .backend) none
      pds := Function.update s.pds (conn.pd .client) none
      ctxs := Function.update s.ctxs c (some { conn with strong := conn.strong - 1 }) })
    ((Function.update_of_ne hpd ..).trans (h.pd_live hc .backend)) (Function.update_self ..)
      (by simp only; omega)
  simp only [Conn.fd, Conn.pd] at h₁ h₂ h₃ h₄
  rw [shutdown, hc.1]
  simp only [hc.2, Bool.false_eq_true, if_false, bind, Except.bind, h₁, h₂, h₃, setConn, h₄]
  simp only [setBad, setConn, Function.update_idem, Function.update_self, shut, Nat.sub_sub,
    Conn.fd, Conn.pd, Nat.reduceAdd]

theorem live_shut_iff {d : Nat} : (s.shut c conn).Live d conn' ↔ d ≠ c ∧ s.Live d conn' := by
  by_cases hd : d = c
  · rw [hd, Live, shut, setConn_self, Option.some.injEq]
    refine ⟨?_, fun h => absurd rfl h.1⟩
    rintro ⟨rfl, hbad⟩
    cases hbad
  · rw [Live, shut, setConn_of_ne hd]
    exact (and_iff_right hd).symm

theorem ctxs_shut {d : Nat} (h : (s.shut c conn).ctxs d = some conn')
    (hc : s.ctxs c = some conn) : ∃ conn₀, s.ctxs d = some conn₀ ∧ conn₀.fds = conn'.fds := by
  by_cases hd : d = c
  · rw [hd, shut, setConn_self, Option.some.injEq] at h
    exact ⟨conn, hd ▸ hc, by rw [← h]; rfl⟩
  · rw [shut, setConn_of_ne hd] at h
    exact ⟨conn', h, rfl⟩

theorem Placed.shut (h : s.Placed) (hc : s.Live c conn) : (s.shut c conn).Placed where
  listen := h.listen
  open_iff fd := by
    refine (h.open_iff fd).trans (or_congr_right (or_congr_right ⟨?_, ?_⟩))
    · rintro ⟨d, conn', hd, hfd⟩
      by_cases hdc : d = c
      · rw [hdc, hc.1, Option.some.injEq] at hd
        exact ⟨c, _, setConn_self .., hd ▸ hfd⟩
      · exact ⟨d, conn', (setConn_of_ne hdc ..).trans hd, hfd⟩
    · rintro ⟨d, conn', hd, hfd⟩
      obtain ⟨conn₀, hd₀, heq⟩ := ctxs_shut hd hc.1
      exact ⟨d, conn₀, hd₀, heq ▸ hfd⟩
  nodup d conn' hd := by
    obtain ⟨conn₀, hd₀, heq⟩ := ctxs_shut hd hc.1
    exact heq ▸ h.nodup d conn₀ hd₀
  apart d d' conn₁ conn₂ hd hd' hne := by
    obtain ⟨conn₃, hd₃, heq⟩ := ctxs_shut hd hc.1
    obtain ⟨conn₄, hd₄, heq'⟩ := ctxs_shut hd' hc.1
    exact heq ▸ heq' ▸ h.apart d d' conn₃ conn₄ hd₃ hd₄ hne
  epoll_iff fd p := by
    apply update_none_iff.trans
    rw [update_none_iff, h.epoll_iff]
    constructor
    · rintro ⟨hne', hne, hfd | ⟨d, conn', who, hd, rfl, rfl⟩⟩
      · exact .inl hfd
      · refine .inr ⟨d, conn', who, live_shut_iff.2 ⟨?_, hd⟩, rfl, rfl⟩
        rintro rfl
        have heq := hc.unique hd
        cases who
        · exact hne (heq ▸ rfl)
        · exact hne' (heq ▸ rfl)
    · rintro (⟨rfl, rfl⟩ | ⟨d, conn', who, hd, rfl, rfl⟩)
      · exact ⟨h.listen_ne hc.1 _, h.listen_ne hc.1 _, .inl ⟨rfl, rfl⟩⟩
      · obtain ⟨hne, hd⟩ := live_shut_iff.1 hd
        exact ⟨h.fd_ne hd.1 hc.1 hne _ _, h.fd_ne hd.1 hc.1 hne _ _,
          .inr ⟨d, conn', who, hd, rfl, rfl⟩⟩
  pds_iff p pd := by
    apply update_none_iff.trans
    rw [update_none_iff, h.pds_iff]
    constructor
    · rintro ⟨hne', hne, conn', hd, rfl⟩
      refine ⟨conn', live_shut_iff.2 ⟨?_, hd⟩, rfl⟩
      rintro rfl
      have heq := hc.unique hd
      revert hne hne'
      cases pd.who
      · intro _ hne
        exact hne (heq ▸ rfl)
      · intro hne' _
        exact hne' (heq ▸ rfl)
    · rintro ⟨conn', hd, rfl⟩
      obtain ⟨hne, hd⟩ := live_shut_iff.1 hd
      exact ⟨h.pd_ne hd hc hne _ _, h.pd_ne hd hc hne _ _, conn', hd, rfl⟩
  zero := by
    apply Option.eq_none_iff_forall_ne_some.2
    intro pd hpd
    have hpd := (update_none_iff.1 (update_none_iff.1 hpd).2).2
    rw [h.zero] at hpd
    cases hpd

theorem Exact.shut (h : s.Exact held) (hc : s.Live c conn) (hmem : c ∈ held) :
    (s.shut c conn).Exact held where
  toPlaced := h.toPlaced.shut hc
  strong d conn' hd := by
    by_cases hdc : d = c
    · have hstrong := h.strong c conn hc.1
      rw [hdc, Server.shut, setConn_self, Option.some.injEq] at hd
      rw [if_neg (by simp [hc.2])] at hstrong
      rw [← hd, hdc]
      simp [Context.shutdown, hstrong]
    · rw [Server.shut, setConn_of_ne hdc] at hd
      exact h.strong d conn' hd
  strong_pos d conn' hd := by
    by_cases hdc : d = c
    · have hstrong := h.strong c conn hc.1
      have hcount := List.count_pos_iff.2 hmem
      rw [hdc, Server.shut, setConn_self, Option.some.injEq] at hd
      rw [if_neg (by simp [hc.2])] at hstrong
      rw [← hd]
      simp only
      omega
    · rw [Server.shut, setConn_of_ne hdc] at hd
      exact h.strong_pos d conn' hd
  held d hd := by
    by_cases hdc : d = c
    · rw [hdc, Server.shut, setConn_self]
      exact Option.some_ne_none _
    · rw [Server.shut, setConn_of_ne hdc]
      exact h.held d hd

theorem foldl_close (s : Server) (l : List Nat) : l.foldl close s = { s with
    fds := s.fds.filter (· ∉ l), epoll := fun fd => if fd ∈ l then none else s.epoll fd } := by
  induction l generalizing s with
  | nil => simp
  | cons a l ih =>
    rw [List.foldl_cons, ih, close]
    congr 1
    · simp [List.filter_filter, List.mem_cons, not_or, Bool.and_comm]
    · funext fd
      by_cases ha : fd = a <;> simp [ha]

theorem ctxs_dropContext {d : Nat} : (s.dropContext c conn).ctxs d = some conn' ↔
      d ≠ c ∧ s.ctxs d = some conn' := by
  by_cases hd : d = c
  · simp [dropContext, hd]
  · simp [dropContext, hd, foldl_close]

theorem Placed.dropContext (h : s.Placed) (hc : s.ctxs c = some conn)
    (hbad : conn.ctx.bad = true) : (s.dropContext c conn).Placed := by
  have hlive : ∀ d conn', (s.dropContext c conn).Live d conn' ↔ s.Live d conn' := fun d conn' =>
    ⟨fun hd => ⟨(ctxs_dropContext.1 hd.1).2, hd.2⟩,
      fun hd => ⟨ctxs_dropContext.2 ⟨hd.ne_of_bad hc hbad, hd.1⟩, hd.2⟩⟩
  have hepfd : (s.dropContext c conn).epfd = s.epfd := by rw [Server.dropContext, foldl_close]
  have hlisten : (s.dropContext c conn).listen_fd = s.listen_fd := by
    rw [Server.dropContext, foldl_close]
  have hpds : (s.dropContext c conn).pds = s.pds := by rw [Server.dropContext, foldl_close]
  have hmem : ∀ fd, fd ∈ (s.dropContext c conn).fds ↔ fd ∈ s.fds ∧ fd ∉ conn.fds := fun fd => by
    rw [Server.dropContext, foldl_close]
    simp
  have hreg : ∀ fd p, (s.dropContext c conn).epoll fd = some p ↔
      fd ∉ conn.fds ∧ s.epoll fd = some p := fun fd p => by
    rw [Server.dropContext, foldl_close]
    simp
  have hnodup := List.nodup_append.1 (h.nodup c conn hc)
  constructor
  · rw [hepfd, hlisten]
    exact h.listen
  · intro fd
    rw [hmem, hepfd, hlisten, h.open_iff]
    constructor
    · rintro ⟨rfl | rfl | ⟨d, conn', hd, hfd⟩, hne⟩
      · exact .inl rfl
      · exact .inr (.inl rfl)
      · refine .inr (.inr ⟨d, conn', ctxs_dropContext.2 ⟨?_, hd⟩, hfd⟩)
        rintro rfl
        rw [hc, Option.some.injEq] at hd
        exact hne (hd ▸ hfd)
    · rintro (rfl | rfl | ⟨d, conn', hd, hfd⟩)
      · exact ⟨.inl rfl, fun hfd => hnodup.2.2 _ (by simp) _ hfd rfl⟩
      · exact ⟨.inr (.inl rfl), fun hfd => hnodup.2.2 _ (by simp) _ hfd rfl⟩
      · obtain ⟨hne, hd⟩ := ctxs_dropContext.1 hd
        exact ⟨.inr (.inr ⟨d, conn', hd, hfd⟩), fun hfd' => hne (h.conn_unique hd hc hfd hfd')⟩
  · intro d conn' hd
    rw [hepfd, hlisten]
    exact h.nodup d conn' (ctxs_dropContext.1 hd).2
  · intro d d' conn₁ conn₂ hd hd'
    exact h.apart d d' conn₁ conn₂ (ctxs_dropContext.1 hd).2 (ctxs_dropContext.1 hd').2
  · intro fd p
    simp only [hreg, hlisten, h.epoll_iff, hlive]
    apply and_iff_right_of_imp
    rintro (⟨rfl, -⟩ | ⟨d, conn', who, hd, rfl, -⟩) hfd
    · exact hnodup.2.2 _ (by simp) _ hfd rfl
    · exact hd.ne_of_bad hc hbad (h.conn_unique hd.1 hc (conn'.fd_mem who) hfd)
  · intro p pd
    simp only [hpds, h.pds_iff, hlive]
  · rw [hpds]
    exact h.zero

theorem Exact.dropRc (h : s.Exact (c :: held)) (hc : s.ctxs c = some conn)
    (hbad : conn.ctx.bad = true) :
    ∃ s', s.dropRc c = .ok s' ∧ s'.Exact held ∧ s'.loop = s.loop := by
  have hstrong := h.strong c conn hc
  rw [if_pos hbad, Nat.zero_add, List.count_cons_self] at hstrong
  rw [Server.dropRc, hc]
  by_cases hlast : conn.strong = 1
  · refine ⟨_, congrArg Except.ok (if_pos hlast),
      ⟨h.toPlaced.dropContext hc hbad, fun d conn' hd => ?_,
      fun d conn' hd => ?_, fun d hd => ?_⟩, by rw [dropContext, foldl_close]⟩
    · obtain ⟨hne, hd⟩ := ctxs_dropContext.1 hd
      rw [h.strong d conn' hd, List.count_cons_of_ne hne.symm]
    · exact h.strong_pos d conn' (ctxs_dropContext.1 hd).2
    · obtain ⟨conn', hd'⟩ := Option.ne_none_iff_exists'.1 (h.held d (List.mem_cons_of_mem c hd))
      have hne : d ≠ c := by
        rintro rfl
        have hcount := List.count_pos_iff.2 hd
        omega
      rw [ctxs_dropContext.2 ⟨hne, hd'⟩]
      exact Option.some_ne_none _
  · refine ⟨_, congrArg Except.ok (if_neg hlast), h.replace hc rfl ?_ ?_ fun d hd => ?_, rfl⟩
    · rw [if_pos hbad]
      simp only
      omega
    · simp only
      have hpos := h.strong_pos c conn hc
      omega
    · rw [List.count_cons_of_ne hd.symm]

theorem update_update_iff {f : Nat → Option α} {a b x : Nat} {u v y : α} (hab : a ≠ b)
    (ha : f a = none) (hb : f b = none) :
    Function.update (Function.update f a (some u)) b (some v) x = some y ↔
      (x = a ∧ y = u ∨ x = b ∧ y = v) ∨ f x = some y := by
  by_cases hxa : x = a
  · simp [hxa, hab, ha, eq_comm]
  · by_cases hxb : x = b <;> simp [hxa, hxb, hb, hab.symm, eq_comm]

def made (client_fd : Nat) (m : Made) : Conn :=
  ⟨.new, client_fd, m.backend_fd, m.in_buf, m.out_buf, m.in_pd, m.out_pd, 2, []⟩

section
variable {client_fd : Nat} {m : Made}

theorem ctxs_handleClient {d : Nat} (hf : s.Fresh client_fd m) :
    (s.handleClient client_fd m).ctxs d = some conn' ↔
      d = m.ctx ∧ conn' = made client_fd m ∨ s.ctxs d = some conn' := by
  have hnone := Option.isNone_iff_eq_none.1 hf.2.2.2.2
  by_cases hd : d = m.ctx
  · simp [handleClient, made, hd, hnone, eq_comm]
  · simp [handleClient, hd]

theorem live_handleClient {d : Nat} (hf : s.Fresh client_fd m) :
    (s.handleClient client_fd m).Live d conn' ↔
    d = m.ctx ∧ conn' = made client_fd m ∨ s.Live d conn' := by
  rw [Live, ctxs_handleClient hf, or_and_right, Live]
  refine or_congr_left (and_iff_left_of_imp ?_)
  rintro ⟨-, rfl⟩
  rfl

theorem Placed.epoll_none (h : s.Placed) (hfd : fd ∉ s.fds) : s.epoll fd = none := by
  refine Option.eq_none_iff_forall_ne_some.2 fun p hp => hfd ((h.open_iff fd).2 ?_)
  obtain ⟨rfl, -⟩ | ⟨d, conn', who, hd, rfl, -⟩ := (h.epoll_iff fd p).1 hp
  · exact .inr (.inl rfl)
  · exact .inr (.inr ⟨d, conn', hd.1, conn'.fd_mem who⟩)

theorem Placed.handleClient (h : s.Placed) (hf : s.Fresh client_fd m) :
    (s.handleClient client_fd m).Placed := by
  have hfresh : ((made client_fd m).fds ++ s.fds).Nodup := hf.1
  obtain ⟨hnodup, -, hdisj⟩ := List.nodup_append.1 hfresh
  have hin := Option.isNone_iff_eq_none.1 hf.2.2.1
  have hout := Option.isNone_iff_eq_none.1 hf.2.2.2.1
  have hpd : m.in_pd ≠ m.out_pd := fun heq => by simpa [heq] using hf.2.1
  have hfd : client_fd ≠ m.backend_fd := fun heq => by simp [made, Conn.fds, heq] at hnodup
  have hnone : ∀ who, s.epoll ((made client_fd m).fd who) = none := fun who =>
    h.epoll_none fun hmem => hdisj _ (Conn.fd_mem _ who) _ hmem rfl
  have hnew : (s.handleClient client_fd m).ctxs m.ctx = some (made client_fd m) :=
    (ctxs_handleClient hf).2 (.inl ⟨rfl, rfl⟩)
  have hlive : (s.handleClient client_fd m).Live m.ctx (made client_fd m) := ⟨hnew, rfl⟩
  have hepfd : s.epfd ∈ s.fds := (h.open_iff _).2 (.inl rfl)
  have hlisten : s.listen_fd ∈ s.fds := (h.open_iff _).2 (.inr (.inl rfl))
  have hopen : ∀ d conn', s.ctxs d = some conn' → ∀ fd ∈ conn'.fds, fd ∈ s.fds :=
      fun d conn' hd fd hmem =>
    (h.open_iff fd).2 (.inr (.inr ⟨d, conn', hd, hmem⟩))
  refine ⟨h.listen, fun fd => ?_, fun d conn' hd => ?_, fun d d' conn₁ conn₂ hd hd' hne =>
    ?_, fun fd p => ?_, fun p pd => ?_, ?_⟩
  · refine List.mem_append.trans ⟨?_, ?_⟩
    · rintro (hmem | hmem)
      · exact .inr (.inr ⟨_, _, hnew, hmem⟩)
      · obtain rfl | rfl | ⟨d, conn', hd, hmem⟩ := (h.open_iff fd).1 hmem
        · exact .inl rfl
        · exact .inr (.inl rfl)
        · exact .inr (.inr ⟨d, conn', (ctxs_handleClient hf).2 (.inr hd), hmem⟩)
    · rintro (rfl | rfl | ⟨d, conn', hd, hmem⟩)
      · exact .inr hepfd
      · exact .inr hlisten
      · obtain ⟨rfl, rfl⟩ | hd := (ctxs_handleClient hf).1 hd
        · exact .inl hmem
        · exact .inr (hopen d conn' hd fd hmem)
  · obtain ⟨rfl, rfl⟩ | hd := (ctxs_handleClient hf).1 hd
    · change ([s.epfd, s.listen_fd] ++ (made client_fd m).fds).Nodup
      refine List.nodup_append.2 ⟨by simpa using h.listen, hnodup, fun a ha b hb hab =>
        hdisj b hb a ?_ hab.symm⟩
      obtain rfl | rfl : a = s.epfd ∨ a = s.listen_fd := by simpa using ha
      · exact hepfd
      · exact hlisten
    · exact h.nodup d conn' hd
  · obtain ⟨rfl, rfl⟩ | hd := (ctxs_handleClient hf).1 hd <;> obtain ⟨rfl, rfl⟩ | hd' :=
      (ctxs_handleClient hf).1 hd'
    · exact absurd rfl hne
    · intro fd hfd hfd'
      exact hdisj fd hfd fd (hopen _ _ hd' fd hfd') rfl
    · intro fd hfd hfd'
      exact hdisj fd hfd' fd (hopen _ _ hd fd hfd) rfl
    · exact h.apart d d' conn₁ conn₂ hd hd' hne
  · refine (update_update_iff hfd (hnone .client) (hnone .backend)).trans ⟨?_, ?_⟩
    · rintro ((⟨rfl, rfl⟩ | ⟨rfl, rfl⟩) | hp)
      · exact .inr ⟨_, _, .client, hlive, rfl, rfl⟩
      · exact .inr ⟨_, _, .backend, hlive, rfl, rfl⟩
      · obtain hl | ⟨d, conn', who, hd, hp⟩ := (h.epoll_iff fd p).1 hp
        · exact .inl hl
        · exact .inr ⟨d, conn', who, (live_handleClient hf).2 (.inr hd), hp⟩
    · rintro (hl | ⟨d, conn', who, hd, rfl, rfl⟩)
      · exact .inr ((h.epoll_iff fd p).2 (.inl hl))
      · obtain ⟨rfl, rfl⟩ | hd := (live_handleClient hf).1 hd
        · cases who
          · exact .inl (.inl ⟨rfl, rfl⟩)
          · exact .inl (.inr ⟨rfl, rfl⟩)
        · exact .inr (h.epoll_live hd who)
  · refine (update_update_iff hpd hin hout).trans ⟨?_, ?_⟩
    · rintro ((⟨rfl, rfl⟩ | ⟨rfl, rfl⟩) | hp)
      · exact ⟨_, hlive, rfl⟩
      · exact ⟨_, hlive, rfl⟩
      · obtain ⟨conn', hd, hp⟩ := (h.pds_iff p pd).1 hp
        exact ⟨conn', (live_handleClient hf).2 (.inr hd), hp⟩
    · rintro ⟨conn', hd, rfl⟩
      obtain ⟨hctx, rfl⟩ | hd := (live_handleClient hf).1 hd
      · refine .inl ?_
        obtain ⟨who, d⟩ := pd
        obtain rfl : d = m.ctx := hctx
        cases who
        · exact .inl ⟨rfl, rfl⟩
        · exact .inr ⟨rfl, rfl⟩
      · exact .inr (h.pd_live hd pd.who)
  · apply Option.eq_none_iff_forall_ne_some.2
    intro pd hpd'
    have hzero : (0 : Nat) ≠ m.in_pd ∧ (0 : Nat) ≠ m.out_pd := by
      have hnodup := hf.2.1
      simp only [List.nodup_cons, List.mem_cons, List.not_mem_nil, or_false, not_or] at hnodup
      exact hnodup.1
    obtain (⟨heq, -⟩ | ⟨heq, -⟩) | hp := (update_update_iff hpd hin hout).1 hpd'
    · exact hzero.1 heq
    · exact hzero.2 heq
    · rw [h.zero] at hp
      cases hp

theorem Exact.handleClient (h : s.Exact held) (hf : s.Fresh client_fd m) :
    (s.handleClient client_fd m).Exact held where
  toPlaced := h.toPlaced.handleClient hf
  strong d conn' hd := by
    obtain ⟨rfl, rfl⟩ | hd := (ctxs_handleClient hf).1 hd
    · have hcount : held.count m.ctx = 0 := List.count_eq_zero.2 fun hmem =>
        h.held m.ctx hmem (Option.isNone_iff_eq_none.1 hf.2.2.2.2)
      rw [hcount]
      rfl
    · exact h.strong d conn' hd
  strong_pos d conn' hd := by
    obtain ⟨rfl, rfl⟩ | hd := (ctxs_handleClient hf).1 hd
    · exact Nat.two_pos
    · exact h.strong_pos d conn' hd
  held d hd := by
    obtain ⟨conn', hd'⟩ := Option.ne_none_iff_exists'.1 (h.held d hd)
    rw [(ctxs_handleClient hf).2 (.inr hd')]
    exact Option.some_ne_none _

end

/-- What holds between two steps: also, nothing of the batch has been freed. -/
structure Safe (s : Server) : Prop where
  exact : s.Exact s.loop.unused
  batch : ∀ p ∈ s.loop.batch, p = 0 ∨ s.pds p ≠ none

theorem Safe.start {ep ls : Nat} (h : ep ≠ ls) : Safe (start ep ls) where
  exact := .start h
  batch _ hp := (List.not_mem_nil hp).elim

theorem Exact.of_loop (h : s.Exact held) (loop : Loop) :
    Server.Exact { s with loop := loop } held where
  toPlaced := h.toPlaced.of_same rfl rfl rfl rfl rfl fun _ => rfl
  strong := h.strong
  strong_pos := h.strong_pos
  held := h.held

theorem Placed.pds_of_epoll (h : s.Placed) (hp : s.epoll fd = some p) :
    p = 0 ∨ s.pds p ≠ none := by
  obtain ⟨-, rfl⟩ | ⟨c, conn, who, hc, rfl, rfl⟩ := (h.epoll_iff fd p).1 hp
  · exact .inl rfl
  · rw [h.pd_live hc who]
    exact .inr (Option.some_ne_none _)

theorem Safe.accept (h : s.Safe) {m : Made} {client_fd : Nat} (hf : s.Fresh client_fd m) :
    (s.handleClient client_fd m).Safe where
  exact := h.exact.handleClient hf
  batch p hp := by
    apply (h.batch p hp).imp_right
    intro hne
    obtain ⟨pd, hpd⟩ := Option.ne_none_iff_exists'.1 hne
    obtain ⟨conn, hc, heq⟩ := (h.exact.pds_iff p pd).1 hpd
    rw [((h.exact.handleClient hf).pds_iff p pd).2
      ⟨conn, (live_handleClient hf).2 (.inr hc), heq⟩]
    exact Option.some_ne_none _

/-- An event finds its box and its context. -/
theorem Safe.handle {batch unused : List Nat} {events : Events} {input output : Splices}
    (h : s.Safe) (hl : s.loop = .events (p :: batch) unused)
    (hp : p ≠ 0) (hs : s.handle maxSize p batch unused events input output = some r) :
    ∃ s', r = .ok s' ∧ s'.Safe := by
  obtain ⟨pd, hpd⟩ :=
    Option.ne_none_iff_exists'.1
    ((h.batch p (by rw [hl]; exact List.mem_cons_self)).resolve_left hp)
  obtain ⟨conn, hc, heq⟩ := (h.exact.pds_iff p pd).1 hpd
  have hexact := h.exact
  rw [hl] at hexact
  simp only [Server.handle, hpd, hc.1, Option.map_eq_some_iff] at hs
  obtain ⟨q, hq, rfl⟩ := hs
  have hstrong := hexact.strong pd.ctx conn hc.1
  refine ⟨_, rfl, ((hexact.replace hc.1 ?_ ?_ ?_ ?_).of_loop _), fun p' hp' => ?_⟩
  · rw [Conn.key, Conn.key, Proxy.handle_bad hq]
    rfl
  · simp only [Loop.unused, List.count_append] at hstrong ⊢
    rw [hstrong]
    cases q.unused <;> simp
    omega
  · have hpos := hexact.strong_pos pd.ctx conn hc.1
    simp only
    omega
  · intro d hd
    cases q.unused <;> simp [Loop.unused, List.count_append, hd.symm]
  · exact h.batch p' (by rw [hl]; exact List.mem_cons_of_mem p hp')

/-- Each element of `unused` is shut down once and let go. -/
theorem Safe.free (h : s.Safe) (hl : s.loop = .events [] (c :: unused))
    (hs : (({ s with loop := .events [] unused }.shutdown c).bind fun s => s.dropRc c) = r) :
    ∃ s', r = .ok s' ∧ s'.Safe := by
  have hexact := h.exact
  rw [hl] at hexact
  have hexact : Exact _ (c :: unused) := hexact.of_loop (.events [] unused)
  obtain ⟨conn, hc⟩ := Option.ne_none_iff_exists'.1 (hexact.held c List.mem_cons_self)
  have hgone : ∀ t : Server, t.Exact (c :: unused) →
      (∃ conn, t.ctxs c = some conn ∧ conn.ctx.bad = true) →
      t.loop = .events [] unused → ∃ s', t.dropRc c = .ok s' ∧ s'.Safe := by
    rintro t ht ⟨conn, hc, hbad⟩ hloop
    obtain ⟨s', hs', hexact', hloop'⟩ := ht.dropRc hc hbad
    rw [hloop] at hloop'
    exact ⟨s', hs', by rw [hloop']; exact hexact', by rw [hloop']; exact fun p hp =>
      (List.not_mem_nil hp).elim⟩
  subst hs
  by_cases hbad : conn.ctx.bad = true
  · rw [shutdown, hc]
    simp only [hbad, if_true]
    exact hgone _ hexact ⟨conn, hc, hbad⟩ rfl
  · rw [Bool.not_eq_true] at hbad
    rw [hexact.shutdown_eq ⟨hc, hbad⟩ List.mem_cons_self]
    exact hgone _ (hexact.shut ⟨hc, hbad⟩ List.mem_cons_self) ⟨_, setConn_self .., rfl⟩ rfl

theorem Safe.step (h : s.Safe) (hs : s.step maxSize a = some r) :
    ∃ s', r = .ok s' ∧ s'.Safe := by
  have hexact := h.exact
  cases stepped_of_step hs with
  | wait hl =>
    rw [hl] at hexact
    refine ⟨_, rfl, hexact.of_loop _, fun p hp => ?_⟩
    obtain ⟨fd, -, hp⟩ := List.mem_filterMap.1 hp
    exact h.exact.pds_of_epoll hp
  | refuse hl => exact ⟨s, rfl, h⟩
  | accept hl hf => exact ⟨_, rfl, h.accept hf⟩
  | again hl =>
    rw [hl] at hexact
    exact ⟨_, rfl, hexact.of_loop _, fun p hp =>
      h.batch p (by rw [hl]; exact List.mem_cons_of_mem 0 hp)⟩
  | event hl hp hs => exact h.handle hl hp hs
  | rest hl =>
    rw [hl] at hexact
    exact ⟨_, rfl, hexact.of_loop _, fun p hp => (List.not_mem_nil hp).elim⟩
  | free hl => exact h.free hl rfl

theorem safe_of_reach (h : (machine maxSize).Reach r) : ∃ s, r = .ok s ∧ s.Safe := by
  refine h.invariant (I := fun r => ∃ s, r = .ok s ∧ s.Safe) ?_ ?_
  · rintro r ⟨ep, ls, hne, rfl⟩
    exact ⟨_, rfl, .start hne⟩
  · rintro _ a r ⟨s, rfl, hsafe⟩ - hs
    exact hsafe.step hs

/-- In every run, with any number of connections and any events and results of system calls,
nothing that has been freed is used or freed again and no `epoll_del` fails. The open
descriptors, the interest list, the boxes and the counts are those of the contexts in memory,
and between two batches none of these has been shut down. -/
theorem resources_exact (h : (machine maxSize).Reach r) :
    ∃ s, r = .ok s ∧ s.Exact s.loop.unused ∧
    (s.loop = .wait → ∀ c conn, s.ctxs c = some conn →
      conn.ctx.bad = false ∧ conn.strong = 2) := by
  obtain ⟨s, rfl, hsafe⟩ := safe_of_reach h
  refine ⟨s, rfl, hsafe.exact, fun hl c conn hc => ?_⟩
  have hstrong := hsafe.exact.strong c conn hc
  have hpos := hsafe.exact.strong_pos c conn hc
  rw [hl, Loop.unused, List.count_nil, Nat.add_zero] at hstrong
  cases hbad : conn.ctx.bad <;>
    simp only [hbad, if_true, Bool.false_eq_true, if_false] at hstrong
  · exact ⟨rfl, hstrong⟩
  · omega

/-- The client sends a byte and the end of file; meanwhile another one connects. -/
def visits : List Next :=
  [.wait [4], .accept 5 (some ⟨6, (7, 8), (9, 10), 1, 11, 12⟩), .again, .free,
    .wait [5, 4], .event ⟨true, false, false, false, false⟩
      ⟨[.ok [7], .error EAGAIN], [.ok 1]⟩ ⟨[], []⟩,
    .accept 13 (some ⟨14, (15, 16), (17, 18), 2, 19, 20⟩), .again, .free,
    .wait [5], .event ⟨true, false, false, false, false⟩ ⟨[.ok []], []⟩ ⟨[], []⟩, .free, .free]

theorem resources_exact_visits : ∃ s, (machine 65536).Reach (.ok s) ∧
    s.fds = [13, 14, 15, 16, 17, 18, 3, 4] ∧ s.Exact [] := by
  have hexec : (machine 65536).exec (.ok (start 3 4)) visits = some (.ok _) := rfl
  have hreach : (machine 65536).Reach (.ok _) := .of_exec ⟨3, 4, by decide, rfl⟩ hexec
  obtain ⟨s, heq, hexact, -⟩ := resources_exact hreach
  cases heq
  exact ⟨_, hreach, rfl, hexact⟩

end Server

end

end Misc.Tcpproxy
