import Misc.Stdmv.Expression

namespace Misc.Stdmv
set_option autoImplicit true

variable {check : List UInt8 → Bool} {twice : Bool} {l : Level} {e : Exp} {a : Acc}
  {s t rest name : List UInt8} {r : Reading} {binop : Option Binop} {op : Binop} {neg : Bool}
  {c d : UInt8} {out : Result}

@[simp] theorem operand_mk (reg neg : Bool) (binop : Option Binop) (unary : Bool) :
    (Acc.mk reg neg binop).operand unary = ⟨combine binop reg (neg ^^ unary), false, none⟩ := by
  cases neg
  · rw [Bool.false_xor]
    rfl
  · rw [Bool.true_xor]
    rfl

/-! ## One round of the loop -/

theorem Evals.blank (hc : isBlank c) (h : Evals check a s out) : Evals check a (c :: s) out := by
  obtain ⟨n, hn⟩ := h
  cases n with
  | zero => cases hn
  | succ n =>
    refine ⟨n + 1, ?_⟩
    rw [Stdmv.eval] at hn ⊢
    rwa [List.dropWhile_cons_of_pos hc]

theorem Evals.nil : Evals check a [] ⟨a.reg, [], false⟩ := ⟨1, rfl⟩

theorem Evals.close : Evals check a (ch ')' :: s) ⟨a.reg, ch ')' :: s, false⟩ := ⟨1, rfl⟩

theorem Evals.not (h : Evals check { a with not := !a.not } s out) :
    Evals check a (ch '!' :: s) out := by
  obtain ⟨n, hn⟩ := h
  exact ⟨n + 1, hn⟩

theorem binopOf_eq (h : binopOf c = some op) : c = ch '&' ∨ c = ch '|' := by
  rw [binopOf] at h
  split_ifs at h with hand hor
  · exact .inl hand
  · exact .inr hor

theorem eval_binop (n : Nat) (hop : binopOf c = some op) (reg : Bool) (s : List UInt8) :
    eval check (n + 1) ⟨reg, false, none⟩ (c :: s) =
      eval check n ⟨reg, false, some op⟩ (s.drop 1) := by
  rcases binopOf_eq hop with rfl | rfl <;> (cases hop; rfl)

theorem isId_token (h : isId c) :
    isBlank c = false ∧ c ≠ ch '!' ∧ binopOf c = none ∧ c ≠ ch ')' ∧ c ≠ ch '(' := by
  refine ⟨?_, ?_, ?_, ?_, ?_⟩
  · rw [← Bool.not_eq_true]
    intro hb
    rw [isId_blank hb] at h
    cases h
  · rintro rfl
    cases h
  · rw [Option.eq_none_iff_forall_ne_some]
    intro op hop
    rcases binopOf_eq hop with rfl | rfl <;> cases h
  · rintro rfl
    cases h
  · rintro rfl
    cases h

theorem Evals.id (hne : name ≠ []) (hid : ∀ c ∈ name, isId c)
    (hs : ∀ c ∈ s.head?, isId c = false)
    (h : Evals check (a.operand (check name)) s out) : Evals check a (name ++ s) out := by
  obtain ⟨n, hn⟩ := h
  refine ⟨n + 1, ?_⟩
  have htake : (name ++ s).takeWhile isId = name := by
    rw [List.takeWhile_append_of_pos hid]
    cases s with
    | nil => exact List.append_nil _
    | cons d s => rw [List.takeWhile_cons_of_neg (by simp [hs d rfl]), List.append_nil]
  have hdrop : (name ++ s).dropWhile isId = s := by
    rw [List.dropWhile_append_of_pos hid]
    cases s with
    | nil => rfl
    | cons d s => exact List.dropWhile_cons_of_neg (by simp [hs d rfl])
  cases name with
  | nil => exact absurd rfl hne
  | cons c name =>
    have hc := hid c List.mem_cons_self
    obtain ⟨hblank, hnot, hop, hclose, hopen⟩ := isId_token hc
    rw [List.cons_append] at htake hdrop ⊢
    rw [Stdmv.eval, List.dropWhile_cons_of_neg (by simp [hblank])]
    dsimp only
    rw [if_neg hnot, hop]
    dsimp only
    rw [if_neg hclose, if_neg hopen, if_pos hc, htake, hdrop]
    exact hn

theorem Evals.group {v : Bool} (hin : Evals check {} s ⟨v, ch ')' :: t, false⟩)
    (h : Evals check (a.operand v) t out) : Evals check a (ch '(' :: s) out := by
  obtain ⟨n, hn⟩ := hin
  obtain ⟨m, hm⟩ := h
  have hn := eval_mono hn (Nat.le_max_left n m)
  have hm := eval_mono hm (Nat.le_max_right n m)
  have heval : Stdmv.eval check (max n m + 1) a (ch '(' :: s) =
      (Stdmv.eval check (max n m) {} s).bind fun r =>
        let a := a.operand r.reg
        if r.close.bad then some ⟨a.reg, r.close.rest, true⟩
        else Stdmv.eval check (max n m) a r.close.rest := rfl
  refine ⟨max n m + 1, ?_⟩
  rw [heval, hn]
  exact hm

/-! ## Readings -/

theorem Scans.evals (h : Scans s r binop neg rest)
    (hout : Evals check ⟨r.value check, neg, binop⟩ rest out) : Evals check {} s out := by
  induction h generalizing out with
  | start => exact hout
  | blank _ hc ih => exact ih (hout.blank hc)
  | not _ ih => exact ih (.not hout)
  | binop _ hop ih =>
    obtain ⟨n, hn⟩ := hout
    apply ih
    refine ⟨n + 1, ?_⟩
    rwa [eval_binop n hop]
  | id _ hne hid hrest ih =>
    apply ih
    apply Evals.id hne hid hrest
    rwa [operand_mk]
  | group _ _ ih ihin =>
    apply ih
    apply Evals.group (ihin .close)
    rwa [operand_mk]

theorem Reads.evals (h : Reads s r) (check : List UInt8 → Bool) :
    ∃ rest, Evals check {} s ⟨r.value check, rest, false⟩ := by
  obtain ⟨binop, neg, rest, hs, hend⟩ := h
  cases hend with
  | nil => exact ⟨_, hs.evals .nil⟩
  | close => exact ⟨_, hs.evals .close⟩
  | binop hop =>
    refine ⟨[], hs.evals ⟨2, ?_⟩⟩
    rw [eval_binop 1 hop]
    rfl

theorem Result.close_eq {i : Result} (h : i.close.bad = false) :
    i.bad = false ∧ i.rest = ch ')' :: i.close.rest := by
  obtain ⟨reg, rest, bad⟩ := i
  cases rest with
  | nil => cases h
  | cons c t =>
    rw [Result.close] at h ⊢
    by_cases hc : c = ch ')'
    · simp only [hc, if_true] at h ⊢
      exact ⟨h, trivial⟩
    · simp only [hc, if_false] at h
      cases h

/-- A string that the loop does not find bad has a reading. -/
theorem eval_reads {n : Nat} (h : eval check n ⟨r.value check, neg, binop⟩ t = some out)
    (hbad : out.bad = false) (hs : Scans s r binop neg t) :
    ∃ r' binop' neg' rest, Scans s r' binop' neg' rest ∧ Ends binop' neg' rest ∧
      out.reg = r'.value check ∧ (out.rest = [] ∨ out.rest = rest) := by
  induction n generalizing s t r binop neg out with
  | zero => cases h
  | succ n ih =>
    rw [eval] at h
    have hs : Scans s r binop neg (t.dropWhile isBlank) := by
      apply Scans.blanks (b := t.takeWhile isBlank)
      · intro c hc
        exact List.mem_takeWhile_imp hc
      · rwa [List.takeWhile_append_dropWhile]
    cases ht : t.dropWhile isBlank with
    | nil =>
      rw [ht] at h hs
      cases h
      exact ⟨_, _, _, _, hs, .nil, rfl, .inl rfl⟩
    | cons c t =>
      rw [ht] at h hs
      dsimp only at h
      by_cases hnot : c = ch '!'
      · rw [if_pos hnot] at h
        subst hnot
        exact ih h hbad hs.not
      · rw [if_neg hnot] at h
        cases hop : binopOf c with
        | some op =>
          rw [hop] at h
          dsimp only at h
          split_ifs at h with hfree
          · obtain ⟨rfl, rfl⟩ := hfree
            cases t with
            | nil =>
              cases n with
              | zero => cases h
              | succ n =>
                cases h
                exact ⟨_, _, _, _, hs, .binop hop, rfl, .inl rfl⟩
            | cons d t => exact ih h hbad (hs.binop hop)
          · cases h
            cases hbad
        | none =>
          rw [hop] at h
          dsimp only at h
          split_ifs at h with hclose hopen hid
          · cases h
            subst hclose
            exact ⟨_, _, _, _, hs, .close, rfl, .inr rfl⟩
          · subst hopen
            obtain ⟨i, hi, h⟩ := Option.bind_eq_some_iff.1 h
            rw [operand_mk] at h
            split_ifs at h with hgood
            · cases h
              cases hbad
            · rw [Bool.not_eq_true] at hgood
              obtain ⟨hi0, hrest⟩ := Result.close_eq hgood
              obtain ⟨r', _, _, rest, hin, -, hreg, hend⟩ := ih (r := .empty) hi hi0 .start
              rw [hrest] at hend
              obtain rfl := hend.resolve_left (List.cons_ne_nil _ _)
              rw [hreg] at h
              exact ih (r := .group r binop neg r') h hbad (.group hs hin)
          · rw [operand_mk] at h
            refine ih (r := .id r binop neg ((c :: t).takeWhile isId)) h hbad (.id ?_ ?_ ?_ ?_)
            · rwa [List.takeWhile_append_dropWhile]
            · rw [List.takeWhile_cons_of_pos hid]
              exact List.cons_ne_nil _ _
            · intro d hd
              exact List.mem_takeWhile_imp hd
            · intro d hd
              have hnot := List.head?_dropWhile_not isId (c :: t)
              rw [Option.mem_def.1 hd] at hnot
              exact hnot
          · cases h
            cases hbad

theorem exists_evalTop (check : List UInt8 → Bool) (s : List UInt8) :
    ∃ v, (∀ n, s.length < n → evalTop check n s = some v) ∧
      (∀ r, Reads s r → v = r.value check) ∧
      (v = false ↔ ∀ r, Reads s r → r.value check = false) := by
  obtain ⟨out, hout⟩ := exists_evals check {} s
  have hreads : ∀ r, Reads s r → (!out.bad && out.reg) = r.value check := by
    intro r hr
    obtain ⟨rest, hrest⟩ := hr.evals check
    rw [hout.unique hrest]
    rfl
  refine ⟨!out.bad && out.reg, ?_, hreads, ?_⟩
  · intro n hn
    rw [evalTop, hout.eval hn]
    rfl
  · constructor
    · intro hfalse r hr
      rw [← hreads r hr, hfalse]
    · intro hall
      cases hbad : out.bad with
      | true => rfl
      | false =>
        obtain ⟨n, hn⟩ := hout
        obtain ⟨r, _, _, _, hs, hend, hreg, -⟩ := eval_reads (r := .empty) hn hbad .start
        rw [hreg, hall r ⟨_, _, _, hs, hend⟩]
        rfl

/-! ## Expressions -/

def Exp.joined : Exp → Bool
  | .and _ _ => true
  | .or _ _ => true
  | _ => false

/-- No `||` stands in front of an `&&` of the same group. -/
def Exp.Plain : Exp → Prop
  | .id _ => True
  | .not e => e.Plain
  | .group e => e.Plain
  | .and a b => a.Plain ∧ b.Plain
  | .or a b => a.Plain ∧ b.Plain ∧ b.joined = false

theorem Writes.not_joined (h : Writes twice .unary e t) : e.joined = false := by
  cases h <;> rfl

theorem Writes.value_onto (h : Writes twice l e t) (he : e.Plain)
    (hfirst : e.joined = true → binop = none ∧ neg = false) :
    (e.onto r binop neg).value check = combine binop (r.value check) (neg ^^ e.value check) := by
  induction h generalizing r binop neg with
  | id => rfl
  | not _ hw _ ih =>
    rw [Exp.onto, ih he (by rw [hw.not_joined]; exact nofun), Exp.value,
      Bool.not_xor, Bool.xor_not]
  | group _ _ _ ih =>
    rw [Exp.onto, Reading.value, ih he fun _ => ⟨rfl, rfl⟩, Bool.false_xor]
    rfl
  | one _ ih => exact ih he hfirst
  | and _ _ hw ih ih' =>
    obtain ⟨rfl, rfl⟩ := hfirst rfl
    rw [Exp.onto, ih' he.2 (by rw [hw.not_joined]; exact nofun), ih he.1 fun _ => ⟨rfl, rfl⟩,
      Bool.false_xor, Bool.false_xor, Bool.false_xor]
    rfl
  | only _ ih => exact ih he hfirst
  | or _ _ _ ih ih' =>
    obtain ⟨rfl, rfl⟩ := hfirst rfl
    rw [Exp.onto, ih' he.2.1 (by rw [he.2.2]; exact nofun), ih he.1 fun _ => ⟨rfl, rfl⟩,
      Bool.false_xor, Bool.false_xor, Bool.false_xor]
    rfl

/-- Without an `||` in front of an `&&`, the reading from left to right is right. -/
theorem IsExp.value_reading (h : IsExp twice e s) (he : e.Plain) :
    e.reading.value check = e.value check := by
  obtain ⟨t, b, -, ht, -⟩ := h
  rw [Exp.reading, ht.value_onto he fun _ => ⟨rfl, rfl⟩, Bool.false_xor]
  rfl

theorem Blank.eq_nil {b : List UInt8} (hb : Blank b) (hid : ∀ c ∈ b, isId c) : b = [] := by
  apply List.eq_nil_iff_forall_not_mem.2
  intro c hc
  have hblank := (isId_token (hid c hc)).1
  rw [hb c hc] at hblank
  cases hblank

theorem Writes.eq_id (h : Writes twice l e t) (ht : ∀ c ∈ t, isId c) : e = .id t := by
  induction h with
  | id hb =>
    rw [List.forall_mem_append] at ht
    rw [hb.eq_nil ht.1]
    rfl
  | not =>
    have hc := ht (ch '!') (by simp)
    cases hc
  | group =>
    have hc := ht (ch '(') (by simp)
    cases hc
  | one _ ih => exact ih ht
  | and =>
    have hc := ht (ch '&') (by simp)
    cases hc
  | only _ ih => exact ih ht
  | or =>
    have hc := ht (ch '|') (by simp)
    cases hc

theorem IsExp.eq_id (h : IsExp twice e s) (hs : ∀ c ∈ s, isId c) : e = .id s := by
  obtain ⟨t, b, rfl, ht, hb⟩ := h
  rw [List.forall_mem_append] at hs
  rw [ht.eq_id hs.1, hb.eq_nil hs.2, List.append_nil]

theorem isExp_id (hne : name ≠ []) (hid : ∀ c ∈ name, isId c) : IsExp twice (.id name) name :=
  ⟨name, [], (List.append_nil name).symm, .only (.one (.id (b := []) nofun hne hid)), nofun⟩

theorem not_isExp_nil : ¬ IsExp twice e [] := by
  rintro ⟨t, b, hnil, ht, -⟩
  exact ht.ne_nil (List.append_eq_nil_iff.1 hnil.symm).1

/-! ## What a constraint means -/

/-- The value that the string has in Go; the empty one is left open. -/
def GoMeans (twice : Bool) (ctx : Ctx) (s : List UInt8) (v : Bool) : Prop :=
  (∀ e, IsExp twice e s → v = e.value (checkGoBuildable ctx)) ∧
    (s ≠ [] → (∀ e, ¬ IsExp twice e s) → v = false)

/-- An expression keeps its value when it is read from left to right, a string that is none has
no reading that is true, and `ignore` is not a tag that is set. -/
def ReadAsMeant (twice : Bool) (ctx : Ctx) (s : List UInt8) : Prop :=
  (∀ e, IsExp twice e s →
    e.reading.value (checkGoBuildable ctx) = e.value (checkGoBuildable ctx)) ∧
  (s ≠ [] → (∀ e, ¬ IsExp twice e s) →
    ∀ r, Reads s r → r.value (checkGoBuildable ctx) = false) ∧
  (s = ignore → checkGoBuildable ctx ignore = false)

theorem evalGoBuildConstraint_eq {ctx : Ctx} {n : Nat} (hne : s ≠ []) (hignore : s ≠ ignore) :
    evalGoBuildConstraint ctx n s = evalTop (checkGoBuildable ctx) n s := by
  rw [evalGoBuildConstraint, if_neg hne, if_neg hignore]

/-- An expression without an `||` in front of an `&&` is given its value. -/
theorem evalGoBuildConstraint_plain {ctx : Ctx} {n : Nat} (h : IsExp twice e s) (he : e.Plain)
    (hignore : s ≠ ignore) (hn : s.length < n) :
    evalGoBuildConstraint ctx n s = some (e.value (checkGoBuildable ctx)) := by
  have hne : s ≠ [] := fun hs => not_isExp_nil (hs ▸ h)
  obtain ⟨v, hv, hread, -⟩ := exists_evalTop (checkGoBuildable ctx) s
  rw [evalGoBuildConstraint_eq hne hignore, hv n hn, hread _ h.reads, h.value_reading he]

theorem evalGoBuildConstraint_unread {ctx : Ctx} {n : Nat} (hne : s ≠ []) (hs : ∀ r, ¬ Reads s r)
    (hn : s.length < n) : evalGoBuildConstraint ctx n s = some false := by
  by_cases hignore : s = ignore
  · rw [evalGoBuildConstraint, if_neg hne, if_pos hignore]
  · obtain ⟨v, hv, -, hfalse⟩ := exists_evalTop (checkGoBuildable ctx) s
    rw [evalGoBuildConstraint_eq hne hignore, hv n hn, hfalse.2 fun r hr => absurd hr (hs r)]

theorem evalGoBuildConstraint_means_iff (twice : Bool) (ctx : Ctx) (expr : List UInt8) :
    ∃ v, (∀ n, expr.length < n → evalGoBuildConstraint ctx n expr = some v) ∧
      (GoMeans twice ctx expr v ↔ ReadAsMeant twice ctx expr) := by
  rcases eq_or_ne expr [] with rfl | hne
  · refine ⟨true, fun n _ => rfl, ?_⟩
    have hignore : [] ≠ ignore := nofun
    constructor
    · intro _
      exact ⟨fun e he => absurd he not_isExp_nil, fun h =>
        absurd rfl h, fun h => absurd h hignore⟩
    · intro _
      exact ⟨fun e he => absurd he not_isExp_nil, fun h => absurd rfl h⟩
  rcases eq_or_ne expr ignore with rfl | hignore
  · refine ⟨false, fun n _ => ?_, ?_⟩
    · rw [evalGoBuildConstraint, if_neg hne, if_pos rfl]
    have hid : ∀ c ∈ ignore, isId c := List.all_eq_true.1 rfl
    have hexp : IsExp twice (.id ignore) ignore := isExp_id hne hid
    constructor
    · intro h
      have hcheck : checkGoBuildable ctx ignore = false := (h.1 _ hexp).symm
      refine ⟨fun e he => ?_, fun _ hnone => absurd hexp (hnone _), fun _ => hcheck⟩
      rw [he.eq_id hid]
      exact Bool.false_xor _
    · intro h
      refine ⟨fun e he => ?_, fun _ _ => rfl⟩
      rw [he.eq_id hid]
      exact (h.2.2 rfl).symm
  · obtain ⟨v, hv, hread, hfalse⟩ := exists_evalTop (checkGoBuildable ctx) expr
    refine ⟨v, fun n hn => (evalGoBuildConstraint_eq hne hignore).trans (hv n hn), ?_⟩
    constructor
    · intro h
      refine ⟨fun e he => ?_, fun hs hnone => hfalse.1 (h.2 hs hnone), fun h => absurd h hignore⟩
      rw [← hread _ he.reads, h.1 e he]
    · intro h
      refine ⟨fun e he => ?_, fun hs hnone => hfalse.2 (h.2.1 hs hnone)⟩
      rw [hread _ he.reads, h.1 e he]

/-- `linux || windows && cgo` on Linux. -/
theorem not_evalGoBuildConstraint_means : ¬ ∀ twice ctx expr, ∃ v,
    (∀ n, expr.length < n → evalGoBuildConstraint ctx n expr = some v) ∧
      GoMeans twice ctx expr v := by
  intro h
  let linux := [ch 'l', ch 'i', ch 'n', ch 'u', ch 'x']
  let windows := [ch 'w', ch 'i', ch 'n', ch 'd', ch 'o', ch 'w', ch 's']
  let cgo := [ch 'c', ch 'g', ch 'o']
  let amd64 := [ch 'a', ch 'm', ch 'd', ch '6', ch '4']
  let ctx : Ctx := ⟨linux, amd64, 18, fun _ => false⟩
  have hblank : Blank [ch ' '] := List.forall_mem_singleton.2 rfl
  have hlinux : Writes false .unary (.id linux) linux :=
    .id (b := []) nofun nofun (List.all_eq_true.1 rfl)
  have hwindows : Writes false .unary (.id windows) ([ch ' '] ++ windows) :=
    .id hblank nofun (List.all_eq_true.1 rfl)
  have hcgo : Writes false .unary (.id cgo) ([ch ' '] ++ cgo) :=
    .id hblank nofun (List.all_eq_true.1 rfl)
  have hexp := Writes.or (.only (.one hlinux)) hblank (.and (.one hwindows) hblank hcgo)
  obtain ⟨v, hv, hmeans⟩ := h false ctx _
  have htrue := hmeans.1 _ ⟨_, [], (List.append_nil _).symm, hexp, nofun⟩
  have hfalse := hv 24 (by decide)
  cases htrue
  cases hfalse

end Misc.Stdmv
