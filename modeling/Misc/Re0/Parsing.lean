import Misc.Re0.Pool
import Misc.Re0.Re

namespace Misc.Re0
set_option autoImplicit true

def Built.Holds (b : Built) (Ls : List (Language UInt8)) : Prop :=
  ∃ T, Parts b.heap b.nfastack Ls T

variable {b : Built} {p q : Language UInt8} {rs : List (Language UInt8)}
  {e : Exp} {t : List UInt8}
  {l : Level} {ops ops' : List Op}

theorem Built.Holds.char (hb : b.Holds rs) (c : UInt8) :
    Holds ⟨(nfaChar c b.heap).1 :: b.nfastack, (nfaChar c b.heap).2⟩ ({[c]} :: rs) := by
  obtain ⟨_, hT⟩ := hb
  exact ⟨_, hT.char c⟩

theorem Built.Holds.star (hb : b.Holds (p :: rs)) :
    ∃ b', b.applyOp .star = some b' ∧ b'.Holds (KStar.kstar p :: rs) := by
  obtain ⟨st, h⟩ := b
  obtain ⟨_, hT⟩ := hb
  cases st with
  | nil => cases hT
  | cons x st => exact ⟨_, rfl, hT.star⟩

theorem Built.Holds.cat (hb : b.Holds (q :: p :: rs)) :
    ∃ b', b.applyOp .cat = some b' ∧ b'.Holds (p * q :: rs) := by
  obtain ⟨st, h⟩ := b
  obtain ⟨_, hT⟩ := hb
  match st with
  | [] => cases hT
  | [y] =>
    cases hT with
    | cons _ h _ => cases h
  | y :: x :: st => exact ⟨_, rfl, hT.cat⟩

theorem Built.Holds.or (hb : b.Holds (q :: p :: rs)) :
    ∃ b', b.applyOp .or = some b' ∧ b'.Holds ((p + q) :: rs) := by
  obtain ⟨st, h⟩ := b
  obtain ⟨_, hT⟩ := hb
  match st with
  | [] => cases hT
  | [y] =>
    cases hT with
    | cons _ h _ => cases h
  | y :: x :: st => exact ⟨_, rfl, hT.or⟩

/-! ## Operators that wait -/

theorem applyOps_append (ops ops' : List Op) (b : Built) :
    applyOps (ops ++ ops') b = (applyOps ops b).bind (applyOps ops') := by
  induction ops generalizing b with
  | nil => rfl
  | cons op ops ih =>
    rw [List.cons_append, applyOps, applyOps, Option.bind_assoc]
    exact congrArg _ (funext ih)

theorem closeGroup_append (h : .lpar ∉ ops) (ops' : List Op) (b : Built) :
    closeGroup (ops ++ .lpar :: ops') b = (applyOps ops b).map fun b => ⟨b, ops'⟩ := by
  induction ops generalizing b with
  | nil => rfl
  | cons op ops ih =>
    rw [List.mem_cons, not_or] at h
    rw [List.cons_append, closeGroup, if_neg (Ne.symm h.1), applyOps, Option.map_bind]
    exact congrArg _ (funext fun b => ih h.2 b)

/-- The operators that wait behind an expression, the top first, and what their operands are. -/
def Exp.pending : Exp → List Op × List (Language UInt8)
  | .cat a b => ([.cat], [b.built.matches', a.built.matches'])
  | .or a b => (b.pending.1 ++ [.or], b.pending.2 ++ [a.before.matches'])
  | e => ([], [e.built.matches'])

theorem Exp.pending_ops (e : Exp) : ∀ op ∈ e.pending.1, op = .cat ∨ op = .or := by
  induction e with
  | char | group | star => exact nofun
  | cat a b => exact List.forall_mem_singleton.2 (.inl rfl)
  | or a b _ ih =>
    exact List.forall_mem_append.2 ⟨ih, List.forall_mem_singleton.2 (.inr rfl)⟩

theorem Exp.pending_built (e : Exp) (hb : b.Holds (e.pending.2 ++ rs)) :
    ∃ b', applyOps e.pending.1 b = some b' ∧ b'.Holds (e.built.matches' :: rs) := by
  induction e generalizing b rs with
  | char | group | star => exact ⟨b, rfl, hb⟩
  | cat p q =>
    obtain ⟨b', h, hb'⟩ := Built.Holds.cat hb
    exact ⟨b', by rw [pending, applyOps, h]; rfl, hb'⟩
  | or p q _ ih =>
    rw [pending, List.append_assoc, List.singleton_append] at hb
    obtain ⟨b₁, h₁, hb₁⟩ := ih hb
    obtain ⟨b', h, hb'⟩ := hb₁.or
    refine ⟨b', ?_, hb'⟩
    rw [pending, applyOps_append, h₁, Option.bind_some, applyOps, h]
    rfl

/-- If `|` is applied in place of each, they build something else. -/
theorem Exp.pending_before (e : Exp) (hb : b.Holds (e.pending.2 ++ rs)) :
    ∃ b', applyOps (e.pending.1.map fun _ => .or) b = some b' ∧
      b'.Holds (e.before.matches' :: rs) := by
  induction e generalizing b rs with
  | char | group | star => exact ⟨b, rfl, hb⟩
  | cat p q =>
    obtain ⟨b', h, hb'⟩ := Built.Holds.or hb
    refine ⟨b', ?_, hb'⟩
    rw [pending, List.map_singleton, applyOps, h]
    rfl
  | or p q _ ih =>
    rw [pending, List.append_assoc, List.singleton_append] at hb
    obtain ⟨b₁, h₁, hb₁⟩ := ih hb
    obtain ⟨b', h, hb'⟩ := hb₁.or
    refine ⟨b', ?_, hb'⟩
    rw [pending, List.map_append, applyOps_append, h₁, Option.bind_some,
      List.map_singleton, applyOps, h]
    rfl

/-- A binary operator takes the waiting operators off the stack that bind no less tightly, and
is applied once for each. -/
theorem popOps_append {op : Op} (h : ∀ top ∈ ops, op.priority ≤ top.priority)
    (h' : ∀ top ∈ ops'.head?, top.priority < op.priority) (b : Built) :
    popOps op (ops ++ ops') b = (applyOps (ops.map fun _ => op) b).map fun b => ⟨b, ops'⟩ := by
  induction ops generalizing b with
  | nil =>
    cases ops' with
    | nil => rfl
    | cons top ops' =>
      rw [List.nil_append, popOps, if_pos (h' top rfl)]
      rfl
  | cons top ops ih =>
    obtain ⟨htop, hops⟩ := List.forall_mem_cons.1 h
    rw [List.cons_append, popOps, if_neg (Nat.not_lt.2 htop), List.map_cons,
      applyOps, Option.map_bind]
    exact congrArg _ (funext fun b => ih hops b)

/-! ## The scan -/

theorem Scan.bytes_append (t u : List UInt8) (s : Scan) :
    Scan.bytes (t ++ u) s = (Scan.bytes t s).bind (Scan.bytes u) := by
  induction t generalizing s with
  | nil => rfl
  | cons c t ih =>
    rw [List.cons_append, Scan.bytes, Scan.bytes, Option.bind_assoc]
    exact congrArg _ (funext ih)

theorem Scan.bytes_singleton (c : UInt8) (s : Scan) : Scan.bytes [c] s = s.byte c := by
  change (s.byte c).bind some = _
  exact Option.bind_fun_some _

/-- What the operators below an expression bind less tightly than. -/
def Level.bound : Level → Nat
  | .value => 4
  | .concat => 3
  | .alt => 2

theorem Scan.byte_plain (h₁ : c ≠ ch '\\') (h₂ : c ≠ ch '(') (h₃ : c ≠ ch '*') (h₄ : c ≠ ch '|')
    (h₅ : c ≠ ch ')') {s : Scan} (hs : s.escape = false) : s.byte c = s.literal c := by
  rw [Scan.byte, if_neg (by rw [hs]; decide), if_neg h₁, if_neg h₂,
    if_neg h₃, if_neg h₄, if_neg h₅]

theorem Scan.literal_joined (p : Parser) (esc : Bool) (c : UInt8) :
    Scan.literal ⟨p, true, esc⟩ c = (p.addOp .cat).bind fun p =>
      Scan.literal ⟨p, false, esc⟩ c :=
  Option.map_eq_bind ..

theorem Writes.joined (h : Writes l e t) (hl : l = .value) (p : Parser) :
    Scan.bytes t ⟨p, true, false⟩ = (p.addOp .cat).bind fun p =>
      Scan.bytes t ⟨p, false, false⟩ := by
  induction h with
  | plain c h₁ h₂ h₃ h₄ h₅ =>
    simp only [Scan.bytes_singleton, Scan.byte_plain h₁ h₂ h₃ h₄ h₅]
    exact Scan.literal_joined p false c
  | escape c =>
    have hbytes (p : Parser) (cat : Bool) : Scan.bytes [ch '\\', c] ⟨p, cat, false⟩ =
        Scan.literal ⟨p, cat, true⟩ (escaped c) := Scan.bytes_singleton c ⟨p, cat, true⟩
    simp only [hbytes]
    exact Scan.literal_joined p true (escaped c)
  | @group e t =>
    have hbyte (cat : Bool) (p : Parser) : Scan.byte ⟨p, cat, false⟩ (ch '(') =
        (Scan.join ⟨p, cat, false⟩).bind fun p => (p.addOp .lpar).map fun p =>
          ⟨p, false, false⟩ := rfl
    simp only [Scan.bytes, hbyte, Option.bind_assoc]
    rfl
  | star h ih => simp only [Scan.bytes_append, ih rfl, Option.bind_assoc]
  | one | cat | only | or => cases hl

theorem Writes.concat_pending (h : Writes l e t) (hl : l ≠ .alt) :
    ∀ op ∈ e.pending.1, op = .cat := by
  induction h with
  | plain | escape | group | star => exact nofun
  | one _ ih => exact ih nofun
  | cat => exact List.forall_mem_singleton.2 rfl
  | only | or => exact absurd rfl hl

theorem Writes.value_pending (h : Writes .value e t) : e.pending = ([], [e.built.matches']) := by
  cases h <;> rfl

/-- The scan of an expression builds its parts and leaves its operators waiting. -/
theorem Writes.scan (h : Writes l e t) (hops : ∀ top ∈ ops.head?, top.priority < l.bound)
    (hb : b.Holds rs) :
    ∃ b', Scan.bytes t ⟨⟨b, ops⟩, false, false⟩ = some ⟨⟨b', e.pending.1 ++ ops⟩, true, false⟩ ∧
      b'.Holds (e.pending.2 ++ rs) := by
  induction h generalizing b ops rs with
  | plain c h₁ h₂ h₃ h₄ h₅ =>
    rw [Scan.bytes_singleton, Scan.byte_plain h₁ h₂ h₃ h₄ h₅ rfl]
    exact ⟨_, rfl, hb.char c⟩
  | escape c => exact ⟨_, rfl, hb.char (escaped c)⟩
  | @group e t h ih =>
    obtain ⟨b₁, h₁, hb₁⟩ := @ih _ _ (.lpar :: ops) (by simp [Op.priority, Level.bound]) hb
    obtain ⟨b', h', hb'⟩ := e.pending_built hb₁
    have hnot : .lpar ∉ e.pending.1 := fun hm => by simpa using e.pending_ops _ hm
    refine ⟨b', ?_, hb'⟩
    change Scan.bytes (t ++ [ch ')']) ⟨⟨b, .lpar :: ops⟩, false, false⟩ = _
    rw [Scan.bytes_append, h₁, Option.bind_some, Scan.bytes_singleton]
    change (closeGroup (e.pending.1 ++ .lpar :: ops) b₁).map _ = _
    rw [closeGroup_append hnot, h']
    rfl
  | @star e t h ih =>
    obtain ⟨b₁, h₁, hb₁⟩ := ih hops hb
    rw [h.value_pending] at h₁ hb₁
    obtain ⟨b', h', hb'⟩ := Built.Holds.star hb₁
    refine ⟨b', ?_, hb'⟩
    rw [Scan.bytes_append, h₁, Option.bind_some, Scan.bytes_singleton]
    change ((b₁.applyOp .star).map _).map _ = _
    rw [h']
    rfl
  | one _ ih => exact ih (fun top htop => Nat.lt_succ_of_lt (hops top htop)) hb
  | only _ ih => exact ih (fun top htop => Nat.lt_succ_of_lt (hops top htop)) hb
  | @cat p t q u hp hq ihp ihq =>
    obtain ⟨b₁, h₁, hb₁⟩ := ihp hops hb
    obtain ⟨b₂, h₂, hb₂⟩ := p.pending_built hb₁
    have hcat := hp.concat_pending nofun
    have hpop : popOps .cat (p.pending.1 ++ ops) b₁ = some ⟨b₂, ops⟩ := by
      have hmap : p.pending.1.map (fun _ => Op.cat) = p.pending.1 :=
        (List.map_congr_left fun op hop => (hcat op hop).symm).trans (List.map_id _)
      rw [popOps_append (fun op hop => by rw [hcat op hop]) hops, hmap, h₂]
      rfl
    obtain ⟨b', h', hb'⟩ := @ihq _ _ (.cat :: ops) (by simp [Op.priority, Level.bound]) hb₂
    rw [hq.value_pending] at h' hb'
    refine ⟨b', ?_, hb'⟩
    rw [Scan.bytes_append, h₁, Option.bind_some, hq.joined rfl]
    change ((popOps .cat (p.pending.1 ++ ops) b₁).map _).bind _ = _
    rw [hpop]
    exact h'
  | @or p t q u hp hq ihp ihq =>
    obtain ⟨b₁, h₁, hb₁⟩ := ihp hops hb
    obtain ⟨b₂, h₂, hb₂⟩ := p.pending_before hb₁
    have hpop : popOps .or (p.pending.1 ++ ops) b₁ = some ⟨b₂, ops⟩ := by
      rw [popOps_append ?_ hops, h₂]
      · rfl
      · intro op hop
        rcases p.pending_ops op hop with rfl | rfl <;> decide
    obtain ⟨b', h', hb'⟩ := @ihq _ _ (.or :: ops) (by simp [Op.priority, Level.bound]) hb₂
    refine ⟨b', ?_, ?_⟩
    · rw [Scan.bytes_append, h₁, Option.bind_some]
      change ((((popOps .or (p.pending.1 ++ ops) b₁).map _).map _).bind _) = _
      rw [hpop]
      dsimp only [Option.map_some, Option.bind_some]
      rw [h', Exp.pending, List.append_assoc]
      rfl
    · rw [Exp.pending, List.append_assoc]
      exact hb'

theorem Writes.toNFA (h : Writes .alt e t) :
    ∃ n g S, REtoNFA t = some (n, g) ∧ Frag g n S e.built.matches' := by
  have hstart : Built.Holds ⟨[], .empty⟩ [] := ⟨∅, .nil⟩
  have hops : ∀ top ∈ ([] : List Op).head?, top.priority < Level.alt.bound := nofun
  obtain ⟨b₁, h₁, hb₁⟩ := h.scan hops hstart
  obtain ⟨⟨st, g⟩, h', _, hT⟩ := e.pending_built hb₁
  cases hT with
  | cons hn hrest =>
    cases hrest with
    | nil =>
      refine ⟨_, g, _, ?_, hn⟩
      rw [REtoNFA, Scan.start, h₁, Option.bind_some, List.append_nil]
      dsimp only
      rw [h']
      rfl

/-- The last alternative is a concatenation. -/
def Exp.endsCat : Exp → Bool
  | .cat _ _ => true
  | .or _ b => b.endsCat
  | _ => false

/-- No concatenation stands right in front of `|`. -/
def Exp.Even : Exp → Prop
  | .char _ => True
  | .group e | .star e => e.Even
  | .cat a b => a.Even ∧ b.Even
  | .or a b => a.Even ∧ b.Even ∧ a.endsCat = false

theorem Exp.Even.built {e : Exp} (h : e.Even) :
    e.built = e.regex ∧ (e.endsCat = false → e.before = e.regex) := by
  induction e with
  | char => exact ⟨rfl, fun _ => rfl⟩
  | group e ih =>
    have heq : e.built = e.regex := (ih h).1
    exact ⟨heq, fun _ => heq⟩
  | star e ih =>
    have heq : e.built.star = e.regex.star := congrArg _ (ih h).1
    exact ⟨heq, fun _ => heq⟩
  | cat a b iha ihb =>
    refine ⟨?_, nofun⟩
    rw [Exp.built, Exp.regex, (iha h.1).1, (ihb h.2).1]
  | or a b iha ihb =>
    constructor
    · rw [Exp.built, Exp.regex, (iha h.1).2 h.2.2, (ihb h.2.1).1]
    · intro hb
      rw [Exp.before, Exp.regex, (iha h.1).2 h.2.2, (ihb h.2.1).2 hb]

/-- Where no concatenation stands right in front of `|`, the waiting operators that `|` finds are
themselves `|`, and the automaton is right. -/
theorem toNFA_language_even (h : Writes .alt e t) (he : e.Even) :
    ∃ n g, REtoNFA t = some (n, g) ∧ n.language g = e.regex.matches' := by
  obtain ⟨n, g, S, hn, hS⟩ := h.toNFA
  exact ⟨n, g, hn, hS.language.trans (by rw [he.built.1])⟩

theorem Writes.ordinary (h : c ∉ [ch '\\', ch '(', ch '*', ch '|', ch ')']) :
    Writes .value (.char c) [c] := by
  simp only [List.mem_cons, List.not_mem_nil, or_false, not_or] at h
  exact .plain c h.1 h.2.1 h.2.2.1 h.2.2.2.1 h.2.2.2.2

/-- The expression `(a|b)*\|`. -/
def eitherBar : Exp :=
  .cat (.star (.group (.or (.char (ch 'a')) (.char (ch 'b'))))) (.char (escaped (ch '|')))

def eitherBarText : List UInt8 :=
  [ch '(', ch 'a', ch '|', ch 'b', ch ')', ch '*', ch '\\', ch '|']

theorem eitherBar_writes : Writes .alt eitherBar eitherBarText := by
  have ha : Writes .value (.char (ch 'a')) [ch 'a'] := .ordinary (by decide)
  have hb : Writes .value (.char (ch 'b')) [ch 'b'] := .ordinary (by decide)
  have hor : Writes .alt (.or (.char (ch 'a')) (.char (ch 'b'))) [ch 'a', ch '|', ch 'b'] :=
    .or (.only (.one ha)) (.one hb)
  exact .only (.cat (.one hor.group.star) (.escape (ch '|')))

theorem eitherBar_even : eitherBar.Even := ⟨⟨trivial, trivial, rfl⟩, trivial⟩

theorem toNFA_language_eitherBar : ∃ n g, REtoNFA eitherBarText = some (n, g) ∧
    n.language g = eitherBar.regex.matches' :=
  toNFA_language_even eitherBar_writes eitherBar_even

/-- The expression `ab|c` is read as `a|b|c`. -/
theorem not_toNFA_language : ¬ ∀ e t, Writes .alt e t →
    ∃ n g, REtoNFA t = some (n, g) ∧ n.language g = e.regex.matches' := by
  intro hall
  have ha : Writes .value (.char (ch 'a')) [ch 'a'] := .ordinary (by decide)
  have hb : Writes .value (.char (ch 'b')) [ch 'b'] := .ordinary (by decide)
  have hc : Writes .value (.char (ch 'c')) [ch 'c'] := .ordinary (by decide)
  have hw : Writes .alt (.or (.cat (.char (ch 'a')) (.char (ch 'b'))) (.char (ch 'c')))
      [ch 'a', ch 'b', ch '|', ch 'c'] := .or (.only (.cat (.one ha) hb)) (.one hc)
  obtain ⟨n, g, S, hn, hS⟩ := hw.toNFA
  obtain ⟨n', g', hn', hlang⟩ := hall _ _ hw
  cases hn.symm.trans hn'
  have hmem : [ch 'a'] ∈ ((.char (ch 'a') + .char (ch 'b')) + .char (ch 'c') :
      RegularExpression UInt8).matches' := .inl (.inl rfl)
  rw [show ((.char (ch 'a') + .char (ch 'b')) +
    .char (ch 'c') : RegularExpression UInt8).matches' = _
    from hS.language.symm.trans hlang] at hmem
  rcases hmem with ⟨u, rfl, v, rfl, huv⟩ | hc
  · cases huv
  · cases hc

end Misc.Re0
