import Mathlib.Data.List.Induction
import Mathlib.Tactic.SplitIfs
import Misc.Tcpproxy.Context

namespace Misc.Tcpproxy
open Misc.Lib
set_option autoImplicit true

/-- The counter is right, and nothing is lost between the two ends of the pipe. -/
structure PipeBuf.Sound (buf : PipeBuf) : Prop where
  count : buf.buffered = buf.pipe.length
  kept : buf.got = buf.put ++ buf.pipe

def Soft (results : List (SysResult α)) : Prop := ∀ r ∈ results, ∀ e, r = .error e → e = EAGAIN

instance (results : List (SysResult α)) : Decidable (Soft results) :=
  have : DecidablePred fun r : SysResult α => ∀ e, r = .error e → e = EAGAIN := fun r =>
    match r with
    | .ok _ => isTrue nofun
    | .error e =>
      decidable_of_iff (e = EAGAIN) ⟨fun h _ he => Except.error.inj he ▸ h, fun h => h e rfl⟩
  inferInstanceAs (Decidable (∀ r ∈ results, ∀ e, r = .error e → e = EAGAIN))

section
variable {maxSize : Nat} {buf buf' : PipeBuf} {io : Splices} {r : SysResult Unit}

theorem PipeBuf.Sound.fill (h : buf.Sound) (data : List UInt8) : (buf.fill data).Sound where
  count := by
    rw [PipeBuf.fill, h.count]
    exact List.length_append.symm
  kept := by
    rw [PipeBuf.fill, h.kept]
    exact List.append_assoc ..

theorem PipeBuf.Sound.drain (h : buf.Sound) (n : Nat) : (buf.drain n).Sound where
  count := by
    rw [PipeBuf.drain, h.count]
    exact List.length_drop.symm
  kept := by
    rw [PipeBuf.drain, h.kept]
    dsimp only
    rw [List.append_assoc, List.take_append_drop]

theorem spliceIn_sound {ins rest : List (SysResult (List UInt8))} {eof : SysResult Bool}
    (h : buf.spliceIn maxSize ins = some (eof, buf', rest)) (hs : buf.Sound) (hsoft : Soft ins) :
    buf'.Sound ∧ ∃ b, eof = .ok b := by
  induction ins generalizing buf with
  | nil =>
    rw [PipeBuf.spliceIn] at h
    split_ifs at h
    cases h
    exact ⟨hs, false, rfl⟩
  | cons r ins ih =>
    rw [PipeBuf.spliceIn.eq_def] at h
    dsimp only at h
    split_ifs at h
    · cases r with
      | error e =>
        cases h
        rw [if_pos (hsoft _ List.mem_cons_self e rfl)]
        exact ⟨hs, false, rfl⟩
      | ok data =>
        dsimp only at h
        split_ifs at h
        · cases h
          exact ⟨hs, _, rfl⟩
        · exact ih h (hs.fill data) fun r hr => hsoft r (List.mem_cons_of_mem _ hr)
    · cases h
      exact ⟨hs, false, rfl⟩

theorem spliceOut_sound {outs : List (SysResult Nat)}
    (h : buf.spliceOut outs = some (r, buf', []))
    (hs : buf.Sound) (hsoft : Soft outs) :
    buf'.Sound ∧ r = .ok () ∧ (buf'.buffered = 0 ↔ .error EAGAIN ∉ outs) := by
  induction outs generalizing buf with
  | nil =>
    rw [PipeBuf.spliceOut] at h
    split_ifs at h with hpos
    cases h
    exact ⟨hs, rfl, iff_of_true (Nat.eq_zero_of_not_pos hpos) List.not_mem_nil⟩
  | cons r outs ih =>
    rw [PipeBuf.spliceOut.eq_def] at h
    dsimp only at h
    split_ifs at h with hpos
    · cases r with
      | error e =>
        have he := hsoft _ List.mem_cons_self e rfl
        cases h
        rw [if_pos he, he]
        exact ⟨hs, rfl, iff_of_false (Nat.ne_of_gt hpos) fun hn => hn List.mem_cons_self⟩
      | ok n =>
        dsimp only at h
        split_ifs at h
        obtain ⟨hs', hr, hiff⟩ := ih h (hs.drain n) fun r hr =>
          hsoft r (List.mem_cons_of_mem _ hr)
        refine ⟨hs', hr, hiff.trans (not_congr ?_)⟩
        rw [List.mem_cons, or_iff_right nofun]
    · cases h

theorem taken_eq {a : α} {t : Option (α × PipeBuf × List β)}
    (h : Context.taken t = some (a, buf)) : t = some (a, buf, []) := by
  obtain ⟨⟨a', buf', rest⟩, ht, h⟩ := Option.bind_eq_some_iff.1 h
  obtain ⟨hrest, h⟩ := Option.ite_none_right_eq_some.1 h
  cases h
  rw [ht, List.isEmpty_iff.1 hrest]

theorem copy_sound (h : Context.copy maxSize buf io = some (r, buf')) (hs : buf.Sound)
    (hin : Soft io.ins) (hout : Soft io.outs) :
    buf'.Sound ∧ (buf'.buffered = 0 ↔ .error EAGAIN ∉ io.outs) := by
  obtain ⟨⟨eof, buf₁⟩, hsplice, h⟩ := Option.bind_eq_some_iff.1 h
  obtain ⟨hs₁, b, rfl⟩ := spliceIn_sound (taken_eq hsplice) hs hin
  obtain ⟨⟨r₂, buf₂⟩, htaken, h⟩ := Option.map_eq_some_iff.1 h
  have htaken := taken_eq htaken
  have hlast : buf₂.Sound ∧ (buf₂.buffered = 0 ↔ .error EAGAIN ∉ io.outs) ∧ r₂ = .ok () := by
    split_ifs at htaken with hempty
    · injection htaken with htaken
      injection htaken with hr htaken
      injection htaken with hbuf houts
      rw [← hbuf, ← hr, houts]
      exact ⟨hs₁, iff_of_true (of_decide_eq_true hempty) List.not_mem_nil, rfl⟩
    · obtain ⟨hs₂, hr, hiff⟩ := spliceOut_sound htaken hs₁ hout
      exact ⟨hs₂, hiff, hr⟩
  obtain ⟨hs₂, hiff, rfl⟩ := hlast
  cases h
  exact ⟨hs₂, hiff⟩

end

def Owner.other : Owner → Owner
  | .client => .backend
  | .backend => .client

/-- The copies that an event leads to, each with the socket that it reads. -/
def Act.copies : Act → List (Owner × Splices)
  | .event who events io io' => (if Proxy.input events then [(who, io)] else []) ++
      if Proxy.output events then [(who.other, io')] else []
  | .endBatch => []

def Act.Clean (_ : Proxy) (a : Act) : Prop := ∀ c ∈ a.copies, Soft c.2.ins ∧ Soft c.2.outs

instance (p : Proxy) (a : Act) : Decidable (a.Clean p) :=
  inferInstanceAs (Decidable (∀ c ∈ a.copies, _))

/-- In the last copy from this socket the other one has refused bytes. -/
def Refused (src : Owner) (copies : List (Owner × Splices)) : Prop :=
  ∃ c ∈ (copies.filter fun c => c.1 = src).getLast?, .error EAGAIN ∈ c.2.outs

namespace Context

def buf (ctx : Context) : Owner → PipeBuf
  | .client => ctx.inBuf
  | .backend => ctx.outBuf

def copyOf (maxSize : Nat) (ctx : Context) : Owner → Splices → Option (SysResult Unit × Context)
  | .client => ctx.copyFrom maxSize
  | .backend => ctx.copyTo maxSize

/-- The pipes after these copies. -/
structure After (ctx : Context) (copies : List (Owner × Splices)) : Prop where
  sound : ∀ src, (ctx.buf src).Sound
  empty : ∀ src, (ctx.buf src).buffered = 0 ↔ ¬ Refused src copies

section
variable {maxSize : Nat} {ctx ctx' : Context} {src : Owner} {io : Splices} {r : SysResult Unit}
  {copies : List (Owner × Splices)}

theorem copyOf_eq (hb : ctx.bad = false) (h : ctx.copyOf maxSize src io = some (r, ctx')) :
    ctx'.bad = false ∧ Context.copy maxSize (ctx.buf src) io = some (r, ctx'.buf src) ∧
      ctx'.buf src.other = ctx.buf src.other := by
  cases src with
  | client =>
    rw [copyOf, copyFrom, hb] at h
    obtain ⟨⟨r', buf⟩, hcopy, heq⟩ := Option.map_eq_some_iff.1 h
    cases heq
    exact ⟨rfl, hcopy, rfl⟩
  | backend =>
    rw [copyOf, copyTo, hb] at h
    obtain ⟨⟨r', buf⟩, hcopy, heq⟩ := Option.map_eq_some_iff.1 h
    cases heq
    exact ⟨rfl, hcopy, rfl⟩

theorem refused_concat {c : Owner × Splices} : Refused src (copies ++ [c]) ↔
    if c.1 = src then .error EAGAIN ∈ c.2.outs else Refused src copies := by
  rw [Refused, List.filter_append]
  split_ifs with hc
  · have hone : ([c].filter fun c => c.1 = src) = [c] := by simp [hc]
    rw [hone, List.getLast?_concat]
    simp
  · have hnone : ([c].filter fun c => c.1 = src) = [] := by simp [hc]
    rw [hnone, List.append_nil]
    rfl

theorem After.copy (h : ctx.After copies) (hb : ctx.bad = false)
    (hc : ctx.copyOf maxSize src io = some (r, ctx')) (hin : Soft io.ins) (hout : Soft io.outs) :
    ctx'.bad = false ∧ ctx'.After (copies ++ [(src, io)]) := by
  obtain ⟨hb', hcopy, hother⟩ := copyOf_eq hb hc
  obtain ⟨hs, hiff⟩ := copy_sound hcopy (h.sound src) hin hout
  have hcases (dir : Owner) : dir = src ∨ dir ≠ src ∧ dir = src.other := by
    cases dir <;> cases src <;> decide
  refine ⟨hb', ?_, ?_⟩
  · intro dir
    rcases hcases dir with rfl | ⟨-, rfl⟩
    · exact hs
    · rw [hother]
      exact h.sound _
  · intro dir
    rw [refused_concat]
    obtain rfl | ⟨hne, heq⟩ := hcases dir
    · rw [if_pos rfl]
      exact hiff
    · rw [if_neg hne.symm, heq, hother]
      exact h.empty _

theorem After.copyIf {q : Prop} [Decidable q] (h : ctx.After copies) (hb : ctx.bad = false)
    (hc : (if q then ctx.copyOf maxSize src io else some (.ok (), ctx)) = some (r, ctx'))
    (hsoft : ∀ c ∈ if q then [(src, io)] else [], Soft c.2.ins ∧ Soft c.2.outs) :
    ctx'.bad = false ∧ ctx'.After (copies ++ if q then [(src, io)] else []) := by
  split_ifs at hc hsoft ⊢
  · obtain ⟨hin, hout⟩ := hsoft _ List.mem_cons_self
    exact h.copy hb hc hin hout
  · cases hc
    rw [List.append_nil]
    exact ⟨hb, h⟩

theorem After.input {who : Owner} {events : Events} (h : ctx.After copies) (hb : ctx.bad = false)
    (hc : Proxy.onInput maxSize ctx who events io = some (r, ctx'))
    (hsoft : ∀ c ∈ if Proxy.input events then [(who, io)]
      else [], Soft c.2.ins ∧ Soft c.2.outs) :
    ctx'.bad = false ∧
      ctx'.After (copies ++ if Proxy.input events then [(who, io)] else []) := by
  have heq : Proxy.onInput maxSize ctx who events io =
      if Proxy.input events then ctx.copyOf maxSize who io else some (.ok (), ctx) := by
    cases who <;> rfl
  rw [heq] at hc
  exact h.copyIf hb hc hsoft

theorem After.output {who : Owner} {events : Events} (h : ctx.After copies)
    (hb : ctx.bad = false)
    (hc : Proxy.onOutput maxSize ctx who events io = some (r, ctx'))
    (hsoft : ∀ c ∈ if Proxy.output events then [(who.other, io)]
      else [], Soft c.2.ins ∧ Soft c.2.outs) :
    ctx'.bad = false ∧
      ctx'.After (copies ++ if Proxy.output events then [(who.other, io)] else []) := by
  have heq : Proxy.onOutput maxSize ctx who events io =
      if Proxy.output events then ctx.copyOf maxSize who.other io else some (.ok (), ctx) := by
    cases who <;> rfl
  rw [heq] at hc
  exact h.copyIf hb hc hsoft

end

end Context

namespace Proxy

/-- What has been read from each socket has been written to the other one. -/
def Forwarded (p : Proxy) : Prop := ∀ src, (p.ctx.buf src).got = (p.ctx.buf src).put

section
variable {maxSize : Nat} {p p' : Proxy} {a : Act} {as : List Act}

theorem after_step (h : p.ctx.After (as.flatMap Act.copies)) (ha : a.Clean p)
    (hs : p.step maxSize a = some p') : p'.ctx.After ((as ++ [a]).flatMap Act.copies) := by
  rw [List.flatMap_append, List.flatMap_singleton]
  cases a with
  | event who events io io' =>
    rw [step] at hs
    split_ifs at hs with hb
    rw [Bool.not_eq_true] at hb
    obtain ⟨⟨res, ctx⟩, hin, hs⟩ := Option.bind_eq_some_iff.1 hs
    obtain ⟨⟨res', ctx'⟩, hout, heq⟩ := Option.map_eq_some_iff.1 hs
    cases heq
    obtain ⟨hb', h'⟩ := h.input hb hin fun c hc => ha c (List.mem_append_left _ hc)
    rw [Act.copies, ← List.append_assoc]
    exact (h'.output hb' hout fun c hc => ha c (List.mem_append_right _ hc)).2
  | endBatch =>
    cases hs
    rw [Act.copies, List.append_nil]
    dsimp only
    split_ifs
    · exact ⟨h.sound, h.empty⟩
    · exact h

theorem after_run (h : (machine maxSize).RunIf Act.Clean new as p) :
    p.ctx.After (as.flatMap Act.copies) := by
  induction as using List.reverseRecOn generalizing p with
  | nil =>
    cases h
    constructor
    · intro src
      cases src <;> exact ⟨rfl, rfl⟩
    · intro src
      cases src <;> exact iff_of_true rfl nofun
  | append_singleton as a ih =>
    obtain ⟨q, hq, h⟩ := h.split
    cases h with
    | cons ha hs h =>
      cases h
      exact after_step (ih hq) ha hs

/-- Everything has been forwarded if and only if in neither direction the last copy has met a
destination that refuses bytes. -/
theorem forwarded_iff (maxSize : Nat) (p : Proxy) (as : List Act)
    (h : (machine maxSize).RunIf Act.Clean new as p) :
    p.Forwarded ↔ ∀ src, ¬ Refused src (as.flatMap Act.copies) := by
  have hafter := after_run h
  apply forall_congr'
  intro src
  rw [← hafter.empty src, (hafter.sound src).kept, (hafter.sound src).count,
    List.append_right_eq_self, List.length_eq_zero_iff]

end

def readable : Events := ⟨true, false, false, false, false⟩

/-- The client sends a byte, and the backend accepts it and closes its connection. -/
def closing : List Act :=
  [.event .client readable ⟨[.ok [1], .error EAGAIN], [.ok 1]⟩ ⟨[], []⟩,
    .event .backend readable ⟨[.ok []], []⟩ ⟨[], []⟩, .endBatch]

theorem forwarded_iff_closing : ∃ p, (machine 65536).RunIf Act.Clean new closing p ∧
    p.ctx.bad = true ∧ (p.Forwarded ↔ ∀ src, ¬ Refused src (closing.flatMap Act.copies)) :=
  have h := .of_execIf rfl
  ⟨_, h, rfl, forwarded_iff 65536 _ closing h⟩

/-- The backend does not accept the byte, and closes its connection. -/
def refusing : List Act :=
  [.event .client readable ⟨[.ok [1], .error EAGAIN], [.error EAGAIN]⟩ ⟨[], []⟩,
    .event .backend readable ⟨[.ok []], []⟩ ⟨[], []⟩, .endBatch]

theorem byte_lost : ¬ ∀ (maxSize : Nat) (p : Proxy) (as : List Act),
    (machine maxSize).RunIf Act.Clean new as p → p.ctx.bad = true → p.Forwarded := by
  intro h
  have hlost := h 65536 _ refusing (.of_execIf rfl) rfl .client
  cases hlost

end Proxy

end Misc.Tcpproxy
