import Misc.Tcpproxy.Forwarding
import Misc.Tcpproxy.Resources

namespace Misc.Tcpproxy
open Misc.Lib
set_option autoImplicit true

/-! ## One connection -/

def moved (results : List (SysResult (List UInt8))) : List UInt8 :=
  results.flatMap fun r => r.toOption.getD []

/-- What these copies have read from a socket. -/
def received (src : Owner) (copies : List (Owner × Splices)) : List UInt8 :=
  (copies.filter fun c => c.1 = src).flatMap fun c => moved c.2.ins

section
variable {maxSize : Nat} {buf buf' : PipeBuf} {io : Splices} {r : SysResult Unit}
  {ctx ctx' : Context} {src : Owner}
  {p p' : Proxy} {a : Act} {as : List Act} {copies : List (Owner × Splices)}

theorem spliceIn_kept {ins rest : List (SysResult (List UInt8))} {eof : SysResult Bool}
    (h : buf.spliceIn maxSize ins = some (eof, buf', rest)) (hs : buf.Sound) :
    buf'.Sound ∧ ∃ used, ins = used ++ rest ∧ buf'.got = buf.got ++ moved used := by
  induction ins generalizing buf with
  | nil =>
    rw [PipeBuf.spliceIn] at h
    split_ifs at h
    cases h
    exact ⟨hs, [], rfl, (List.append_nil _).symm⟩
  | cons r ins ih =>
    rw [PipeBuf.spliceIn.eq_def] at h
    dsimp only at h
    split_ifs at h
    · cases r with
      | error e =>
        cases h
        exact ⟨hs, [.error e], rfl, (List.append_nil _).symm⟩
      | ok data =>
        dsimp only at h
        split_ifs at h with hlong hnil
        · cases h
          exact ⟨hs, [.ok data], rfl, by rw [hnil]; exact (List.append_nil _).symm⟩
        · obtain ⟨hs', used, rfl, hgot⟩ := ih h (hs.fill data)
          refine ⟨hs', .ok data :: used, rfl, ?_⟩
          rw [hgot, PipeBuf.fill, List.append_assoc]
          rfl
    · cases h
      exact ⟨hs, [], rfl, (List.append_nil _).symm⟩

theorem spliceOut_kept {outs rest : List (SysResult Nat)}
    (h : buf.spliceOut outs = some (r, buf', rest))
    (hs : buf.Sound) : buf'.Sound ∧ buf'.got = buf.got := by
  induction outs generalizing buf with
  | nil =>
    rw [PipeBuf.spliceOut] at h
    split_ifs at h
    cases h
    exact ⟨hs, rfl⟩
  | cons r outs ih =>
    rw [PipeBuf.spliceOut.eq_def] at h
    dsimp only at h
    split_ifs at h
    · cases r with
      | error e =>
        cases h
        exact ⟨hs, rfl⟩
      | ok n =>
        dsimp only at h
        split_ifs at h
        obtain ⟨hs', hgot⟩ := ih h (hs.drain n)
        exact ⟨hs', hgot⟩
    · cases h
      exact ⟨hs, rfl⟩

theorem copy_kept (h : Context.copy maxSize buf io = some (r, buf')) (hs : buf.Sound) :
    buf'.Sound ∧ buf'.got = buf.got ++ moved io.ins := by
  obtain ⟨⟨eof, buf₁⟩, hin, h⟩ := Option.bind_eq_some_iff.1 h
  obtain ⟨hs₁, used, hused, hgot⟩ := spliceIn_kept (taken_eq hin) hs
  rw [List.append_nil] at hused
  subst hused
  cases eof with
  | error e =>
    have h := taken_eq h
    simp only [Option.some.injEq, Prod.mk.injEq] at h
    exact h.2.1 ▸ ⟨hs₁, hgot⟩
  | ok eof =>
    obtain ⟨⟨r₂, buf₂⟩, hout, h⟩ := Option.map_eq_some_iff.1 h
    have hlast : buf₂.Sound ∧ buf₂.got = buf₁.got := by
      have hout := taken_eq hout
      split_ifs at hout
      · simp only [Option.some.injEq, Prod.mk.injEq] at hout
        exact hout.2.1 ▸ ⟨hs₁, rfl⟩
      · exact spliceOut_kept hout hs₁
    have heq : buf' = buf₂ := by cases r₂ <;> cases h <;> rfl
    rw [heq, hlast.2]
    exact ⟨hlast.1, hgot⟩

/-- The pipes of a context hold what these copies have read and not written. -/
def Context.Keeps (ctx : Context) (copies : List (Owner × Splices)) : Prop :=
  ∀ src, (ctx.buf src).Sound ∧ (ctx.buf src).got = received src copies

theorem received_concat {c : Owner × Splices} :
    received src (copies ++ [c]) = received src copies ++ if c.1 = src then
      moved c.2.ins else [] := by
  rw [received, received, List.filter_append, List.flatMap_append]
  split_ifs with hc <;> simp [hc]

namespace Context

theorem Keeps.copy (h : ctx.Keeps copies) (hb : ctx.bad = false)
    (hc : ctx.copyOf maxSize src io = some (r, ctx')) :
    ctx'.bad = false ∧ ctx'.Keeps (copies ++ [(src, io)]) := by
  obtain ⟨hb', hcopy, hother⟩ := copyOf_eq hb hc
  obtain ⟨hs, hgot⟩ := copy_kept hcopy (h src).1
  have hcases (dir : Owner) : dir = src ∨ dir ≠ src ∧ dir = src.other := by
    cases dir <;> cases src <;> decide
  refine ⟨hb', fun dir => ?_⟩
  rw [received_concat]
  obtain rfl | ⟨hne, heq⟩ := hcases dir
  · rw [if_pos rfl, hgot, (h dir).2]
    exact ⟨hs, rfl⟩
  · rw [if_neg hne.symm, heq, hother, List.append_nil]
    exact h _

theorem Keeps.copyIf {q : Prop} [Decidable q] (h : ctx.Keeps copies) (hb : ctx.bad = false)
    (hc : (if q then ctx.copyOf maxSize src io else some (.ok (), ctx)) = some (r, ctx')) :
    ctx'.bad = false ∧ ctx'.Keeps (copies ++ if q then [(src, io)] else []) := by
  split_ifs at hc ⊢
  · exact h.copy hb hc
  · cases hc
    rw [List.append_nil]
    exact ⟨hb, h⟩

theorem onInput_eq (maxSize : Nat) (ctx : Context) (who : Owner)
    (events : Events) (io : Splices) : Proxy.onInput maxSize ctx who events io =
      if Proxy.input events then ctx.copyOf maxSize who io else some (.ok (), ctx) := by
  cases who <;> rfl

theorem onOutput_eq (maxSize : Nat) (ctx : Context) (who : Owner)
    (events : Events) (io : Splices) : Proxy.onOutput maxSize ctx who events io =
      if Proxy.output events then ctx.copyOf maxSize who.other io else some (.ok (), ctx) := by
  cases who <;> rfl

end Context

theorem keeps_step (h : p.ctx.Keeps (as.flatMap Act.copies)) (hs : p.step maxSize a = some p') :
    p'.ctx.Keeps ((as ++ [a]).flatMap Act.copies) := by
  rw [List.flatMap_append, List.flatMap_singleton]
  cases a with
  | event who events io io' =>
    rw [Proxy.step] at hs
    split_ifs at hs with hb
    rw [Bool.not_eq_true] at hb
    obtain ⟨⟨res, ctx⟩, hin, hs⟩ := Option.bind_eq_some_iff.1 hs
    obtain ⟨⟨res', ctx'⟩, hout, heq⟩ := Option.map_eq_some_iff.1 hs
    cases heq
    rw [Context.onInput_eq] at hin
    rw [Context.onOutput_eq] at hout
    obtain ⟨hb', h'⟩ := h.copyIf hb hin
    rw [Act.copies, ← List.append_assoc]
    exact (h'.copyIf hb' hout).2
  | endBatch =>
    cases hs
    rw [Act.copies, List.append_nil]
    dsimp only
    split_ifs <;> exact h

theorem keeps_run (h : (machine maxSize).Run .new as p) :
    p.ctx.Keeps (as.flatMap Act.copies) := by
  have hnew : Proxy.new.ctx.Keeps (([] : List Act).flatMap Act.copies) := fun src => by
    cases src <;> exact ⟨⟨rfl, rfl⟩, rfl⟩
  exact h.history (I := fun as p => p.ctx.Keeps (as.flatMap Act.copies)) hnew
    fun _ _ _ _ hI _ hs => keeps_step hI hs

end

/-! ## All connections -/

/-- The context as its own loop would have it, when the references in `held` are those to be
shut down. -/
def Conn.proxy (conn : Conn) (c : Nat) (held : List Nat) : Proxy :=
  ⟨conn.ctx, decide (c ∈ held) && !conn.ctx.bad⟩

namespace Server

section
variable {maxSize : Nat} {s s' t : Server} {held unused : List Nat} {c : Nat}
  {conn : Conn} {a : Next}

/-- Each context has moved as a single one does. -/
structure Tracked (maxSize : Nat) (s : Server) (held : List Nat) : Prop where
  ctxs : ∀ c conn, s.ctxs c = some conn →
    (Tcpproxy.machine maxSize).Run .new conn.acts (conn.proxy c held)
  closed : ∀ conn ∈ s.closed, conn.ctx.bad = true ∧
    (Tcpproxy.machine maxSize).Run .new conn.acts ⟨conn.ctx, false⟩

theorem proxy_congr (h : c ∈ held' ↔ c ∈ held) : conn.proxy c held' = conn.proxy c held := by
  rw [Conn.proxy, Conn.proxy, decide_eq_decide.2 h]

theorem Tracked.start (maxSize ep ls : Nat) : Tracked maxSize (start ep ls) [] where
  ctxs c conn hc := by cases hc
  closed conn hc := (List.not_mem_nil hc).elim

theorem run_concat {p p' p'' : Proxy} {a : Act} (h : (Tcpproxy.machine maxSize).Run p as p')
    (hs : p'.step maxSize a = some p'') : (Tcpproxy.machine maxSize).Run p (as ++ [a]) p'' :=
  h.append (.cons trivial hs (.nil p''))

theorem Tracked.setConn (h : s.Tracked maxSize held)
    (hc : (Tcpproxy.machine maxSize).Run .new conn.acts (conn.proxy c held'))
    (hheld : ∀ d, d ≠ c → (d ∈ held' ↔ d ∈ held)) :
    (s.setConn c conn).Tracked maxSize held' where
  ctxs d conn' hd := by
    by_cases hdc : d = c
    · rw [hdc, setConn_self, Option.some.injEq] at hd
      rw [hdc, ← hd]
      exact hc
    · rw [setConn_of_ne hdc] at hd
      rw [proxy_congr (hheld d hdc)]
      exact h.ctxs d conn' hd
  closed := h.closed

theorem proxy_bad (h : conn.ctx.bad = true) (c : Nat) (held : List Nat) :
    conn.proxy c held = ⟨conn.ctx, false⟩ := by
  rw [Conn.proxy, h, Bool.not_true, Bool.and_false]

theorem proxy_cons (h : conn.ctx.bad = false) (c : Nat) (held : List Nat) :
    conn.proxy c (c :: held) = ⟨conn.ctx, true⟩ := by
  simp [Conn.proxy, h]

theorem Tracked.shut (h : s.Tracked maxSize (c :: held)) (hc : s.Live c conn) :
    (s.shut c conn).Tracked maxSize held := by
  have hrun := h.ctxs c conn hc.1
  rw [proxy_cons hc.2] at hrun
  refine Tracked.setConn ⟨h.ctxs, h.closed⟩ ?_ fun d hd => by simp [hd]
  rw [proxy_bad rfl]
  exact run_concat hrun rfl

theorem Tracked.of_bad (h : s.Tracked maxSize (c :: held)) (hc : s.ctxs c = some conn)
    (hbad : conn.ctx.bad = true) : s.Tracked maxSize held where
  ctxs d conn' hd := by
    have hrun := h.ctxs d conn' hd
    by_cases hdc : d = c
    · rw [hdc, hc, Option.some.injEq] at hd
      rw [← hd, proxy_bad hbad] at hrun ⊢
      exact hrun
    · rwa [proxy_congr (List.mem_cons.trans (or_iff_right hdc))] at hrun
  closed := h.closed

theorem Tracked.dropRc (h : s.Tracked maxSize held) (hc : s.ctxs c = some conn)
    (hbad : conn.ctx.bad = true)
    (hs : s.dropRc c = .ok s') : s'.Tracked maxSize held := by
  have hrun := h.ctxs c conn hc
  rw [Server.dropRc, hc] at hs
  cases hs
  split_ifs
  · refine ⟨fun d conn' hd => h.ctxs d conn' (ctxs_dropContext.1 hd).2, fun conn' hmem => ?_⟩
    rw [proxy_bad hbad] at hrun
    obtain hmem | hmem := List.mem_append.1 hmem
    · exact h.closed conn' hmem
    · rw [List.mem_singleton.1 hmem]
      exact ⟨hbad, hrun⟩
  · exact h.setConn hrun fun _ _ => Iff.rfl

theorem dropRc_loop (hs : s.dropRc c = .ok s') : s'.loop = s.loop := by
  rw [Server.dropRc] at hs
  split at hs <;> cases hs
  split_ifs
  · rw [dropContext, foldl_close]
  · rfl

theorem Tracked.free (h : s.Tracked maxSize (c :: unused)) (hexact : s.Exact (c :: unused))
    (hs : ((s.shutdown c).bind fun s => s.dropRc c) = .ok s') :
    s'.Tracked maxSize unused ∧ s'.loop = s.loop := by
  obtain ⟨conn, hc⟩ := Option.ne_none_iff_exists'.1 (hexact.held c List.mem_cons_self)
  by_cases hbad : conn.ctx.bad = true
  · rw [shutdown, hc] at hs
    simp only [hbad, if_true] at hs
    exact ⟨(h.of_bad hc hbad).dropRc hc hbad hs, dropRc_loop hs⟩
  · rw [Bool.not_eq_true] at hbad
    rw [hexact.shutdown_eq ⟨hc, hbad⟩ List.mem_cons_self] at hs
    exact ⟨(h.shut ⟨hc, hbad⟩).dropRc (setConn_self ..) rfl hs, (dropRc_loop hs).trans rfl⟩

theorem handle_unused {ctx : Context} {q : Proxy} (u : Bool)
    (h : Proxy.handle maxSize ⟨ctx, false⟩ who events io io' = some q) :
    Proxy.handle maxSize ⟨ctx, u⟩ who events io io' = some ⟨q.ctx, u || q.unused⟩ := by
  obtain ⟨⟨res, ctx₁⟩, hin, h⟩ := Option.bind_eq_some_iff.1 h
  obtain ⟨⟨res', ctx₂⟩, hout, rfl⟩ := Option.map_eq_some_iff.1 h
  simp only [Proxy.handle, hin, Option.bind_some, hout, Option.map_some,
    Bool.false_or, Bool.or_assoc]

theorem Tracked.handle {p : Nat} {batch : List Nat} {events : Events} {input output : Splices}
    (h : s.Tracked maxSize unused) (hexact : s.Exact unused)
    (hs : s.handle maxSize p batch unused events input output = some (.ok s')) :
    s'.Tracked maxSize s'.loop.unused := by
  rw [Server.handle] at hs
  cases hpd : s.pds p with
  | none => simp [hpd] at hs
  | some pd =>
    obtain ⟨conn, hc, -⟩ := (hexact.pds_iff p pd).1 hpd
    simp only [hpd, hc.1, Option.map_eq_some_iff, Except.ok.injEq] at hs
    obtain ⟨q, hq, rfl⟩ := hs
    have hbad : q.ctx.bad = false := (Proxy.handle_bad hq).trans hc.2
    have hset : (s.setConn pd.ctx { conn with
        ctx := q.ctx
        strong := conn.strong + q.unused.toNat
        acts := conn.acts ++ [.event pd.who events input output] }).Tracked maxSize
          (unused ++ if q.unused then [pd.ctx] else []) := by
      refine h.setConn (run_concat (h.ctxs pd.ctx conn hc.1) ?_) fun d hd => ?_
      · rw [Proxy.step, if_neg (by simp [Conn.proxy, hc.2])]
        apply (handle_unused _ hq).trans
        cases q.unused <;> simp [Conn.proxy, hbad, hc.2]
      · cases q.unused <;> simp [hd]
    exact ⟨hset.ctxs, hset.closed⟩

theorem Tracked.step (h : s.Tracked maxSize s.loop.unused) (hsafe : s.Safe)
    (hs : s.step maxSize a = some (.ok s')) : s'.Tracked maxSize s'.loop.unused := by
  have hexact := hsafe.exact
  generalize hr : Except.ok s' = r at hs
  cases stepped_of_step hs with
  | wait hl =>
    cases hr
    rw [hl] at h
    exact ⟨h.ctxs, h.closed⟩
  | refuse hl =>
    cases hr
    exact h
  | @accept batch unused client_fd m hl hf =>
    cases hr
    refine ⟨fun d conn hd => ?_, h.closed⟩
    obtain ⟨rfl, rfl⟩ | hd := (ctxs_handleClient hf).1 hd
    · have hno : decide (m.ctx ∈ s.loop.unused) = false := decide_eq_false fun hmem =>
        hexact.held m.ctx hmem (Option.isNone_iff_eq_none.1 hf.2.2.2.2)
      have hproxy : (made client_fd m).proxy m.ctx s.loop.unused = .new := by
        rw [Conn.proxy, hno]
        rfl
      exact hproxy ▸ .nil _
    · exact h.ctxs d conn hd
  | again hl =>
    cases hr
    rw [hl] at h
    exact ⟨h.ctxs, h.closed⟩
  | event hl hp hs =>
    rw [hl] at h hexact
    rw [← hr] at hs
    exact h.handle hexact hs
  | rest hl =>
    cases hr
    rw [hl] at h
    exact ⟨h.ctxs, h.closed⟩
  | @free c unused hl =>
    rw [hl] at h hexact
    obtain ⟨htracked, hloop⟩ :=
      Tracked.free (s := { s with loop := .events [] unused }) ⟨h.ctxs, h.closed⟩
      (hexact.of_loop _) hr.symm
    rw [hloop]
    exact htracked

theorem tracked_of_reach (h : (machine maxSize).Reach (.ok s)) :
    s.Tracked maxSize s.loop.unused := by
  obtain ⟨t, heq, -, ht⟩ :=
    h.invariant (I := fun r => ∃ s, r = .ok s ∧ s.Safe ∧ s.Tracked maxSize s.loop.unused) (by
      rintro r ⟨ep, ls, hne, rfl⟩
      exact ⟨_, rfl, .start hne, .start maxSize ep ls⟩)
    (by
      rintro _ a r ⟨s, rfl, hsafe, htracked⟩ - hs
      obtain ⟨s', rfl, hsafe'⟩ := hsafe.step hs
      exact ⟨s', rfl, hsafe', htracked.step hsafe hs⟩)
  cases heq
  exact ht

/-- In every run of the server the context of each connection, also after it has been dropped,
is where a context that is alone goes by the same events and results of `splice`: no connection
has an effect on another one. -/
theorem contexts_run (h : (machine maxSize).Reach (.ok s)) :
    (∀ c conn, s.ctxs c = some conn → (Tcpproxy.machine maxSize).Run .new conn.acts
      ⟨conn.ctx, decide (c ∈ s.loop.unused) && !conn.ctx.bad⟩) ∧
    ∀ conn ∈ s.closed, conn.ctx.bad = true ∧
      (Tcpproxy.machine maxSize).Run .new conn.acts ⟨conn.ctx, false⟩ :=
  ⟨(tracked_of_reach h).ctxs, (tracked_of_reach h).closed⟩

theorem contexts_run_visits :
    ∃ s, (machine 65536).Reach (.ok s) ∧ s.fds = [13, 14, 15, 16, 17, 18, 3, 4] ∧
    ∃ conn ∈ s.closed, conn.ctx.bad = true ∧
      (Tcpproxy.machine 65536).Run .new conn.acts ⟨conn.ctx, false⟩ := by
  have hexec : (machine 65536).exec (.ok (start 3 4)) visits = some (.ok _) := rfl
  have hreach : (machine 65536).Reach (.ok _) := .of_exec ⟨3, 4, by decide, rfl⟩ hexec
  exact ⟨_, hreach, rfl, _, List.mem_cons_self, (contexts_run hreach).2 _ List.mem_cons_self⟩

/-- Whatever errors there are, what a connection has read from one of its sockets is what it has
written to the other one and then what is in its pipe. -/
theorem streams_kept (h : (machine maxSize).Reach (.ok s))
    (hc : (∃ c, s.ctxs c = some conn) ∨ conn ∈ s.closed)
    (src : Owner) :
    received src (conn.acts.flatMap Act.copies) =
    (conn.ctx.buf src).put ++ (conn.ctx.buf src).pipe := by
  have htracked := tracked_of_reach h
  have hkeeps : conn.ctx.Keeps (conn.acts.flatMap Act.copies) := by
    obtain ⟨c, hc⟩ | hc := hc
    · exact keeps_run (htracked.ctxs c conn hc)
    · exact keeps_run (htracked.closed conn hc).2
  rw [← (hkeeps src).2, (hkeeps src).1.kept]

theorem streams_kept_visits : ∃ s, (machine 65536).Reach (.ok s) ∧ ∃ conn ∈ s.closed,
    received .client (conn.acts.flatMap Act.copies) = [7] ∧
      (conn.ctx.buf .client).put ++ (conn.ctx.buf .client).pipe = [7] := by
  have hexec : (machine 65536).exec (.ok (start 3 4)) visits = some (.ok _) := rfl
  have hreach : (machine 65536).Reach (.ok _) := .of_exec ⟨3, 4, by decide, rfl⟩ hexec
  exact ⟨_, hreach, _, List.mem_cons_self, rfl,
    streams_kept hreach (.inr List.mem_cons_self) .client ▸ rfl⟩

end

end Server

end Misc.Tcpproxy
