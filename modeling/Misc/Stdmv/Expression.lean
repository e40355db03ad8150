import Misc.Stdmv.Constraint

namespace Misc.Stdmv
set_option autoImplicit true

/-- An expression of a `//go:build` line as it is written; a group stands in parentheses. -/
inductive Exp
  | id (name : List UInt8)
  | not (e : Exp)
  | group (e : Exp)
  | and (a b : Exp)
  | or (a b : Exp)
  deriving DecidableEq, Repr

def Exp.isNot : Exp → Bool
  | .not _ => true
  | _ => false

def Exp.value (check : List UInt8 → Bool) : Exp → Bool
  | .id name => check name
  | .not e => !e.value check
  | .group e => e.value check
  | .and a b => a.value check && b.value check
  | .or a b => a.value check || b.value check

/-- What `!` may stand in front of, what `&&` joins, and the rest. -/
inductive Level
  | unary | and | or

def Blank (b : List UInt8) : Prop := ∀ c ∈ b, isBlank c

/-- The text of an expression, with blanks in front of each token. `!` binds tighter than `&&`,
and that tighter than `||`; `twice` says whether one `!` may follow another, which Go's own
parser refuses. -/
inductive Writes (twice : Bool) : Level → Exp → List UInt8 → Prop
  | id : Blank b → name ≠ [] → (∀ c ∈ name, isId c) → Writes twice .unary (.id name) (b ++ name)
  | not : Blank b → Writes twice .unary e t → (e.isNot → twice) →
      Writes twice .unary (.not e) (b ++ ch '!' :: t)
  | group : Blank b → Writes twice .or e t → Blank b' →
      Writes twice .unary (.group e) (b ++ ch '(' :: (t ++ (b' ++ [ch ')'])))
  | one : Writes twice .unary e t → Writes twice .and e t
  | and : Writes twice .and e t → Blank b → Writes twice .unary f u →
      Writes twice .and (.and e f) (t ++ (b ++ ch '&' :: ch '&' :: u))
  | only : Writes twice .and e t → Writes twice .or e t
  | or : Writes twice .or e t → Blank b → Writes twice .and f u →
      Writes twice .or (.or e f) (t ++ (b ++ ch '|' :: ch '|' :: u))

def IsExp (twice : Bool) (e : Exp) (s : List UInt8) : Prop :=
  ∃ t b, s = t ++ b ∧ Writes twice .or e t ∧ Blank b

/-! ## Readings -/

/-- Operands from left to right, each behind at most one operator; an operand without an operator
replaces what stands in front of it. -/
inductive Reading
  | empty
  | id (before : Reading) (binop : Option Binop) (neg : Bool) (name : List UInt8)
  | group (before : Reading) (binop : Option Binop) (neg : Bool) (inner : Reading)
  deriving DecidableEq, Repr

def Reading.value (check : List UInt8 → Bool) : Reading → Bool
  | .empty => false
  | .id r binop neg name => combine binop (r.value check) (neg ^^ check name)
  | .group r binop neg inner => combine binop (r.value check) (neg ^^ inner.value check)

/-- The string is read up to `rest` as `r`, with an operator and a negation that wait for an
operand. The second byte of an operator may be any. -/
inductive Scans : List UInt8 → Reading → Option Binop → Bool → List UInt8 → Prop
  | start : Scans s .empty none false s
  | blank : Scans s r binop neg (c :: rest) → isBlank c → Scans s r binop neg rest
  | not : Scans s r binop neg (ch '!' :: rest) → Scans s r binop (!neg) rest
  | binop : Scans s r none false (c :: d :: rest) → binopOf c = some op →
      Scans s r (some op) false rest
  | id : Scans s r binop neg (name ++ rest) → name ≠ [] → (∀ c ∈ name, isId c) →
      (∀ c ∈ rest.head?, isId c = false) → Scans s (.id r binop neg name) none false rest
  | group : Scans s r binop neg (ch '(' :: t) → Scans t r' binop' neg' (ch ')' :: rest) →
      Scans s (.group r binop neg r') none false rest

/-- Where a reading may end: with the string, in front of a closing parenthesis, or with the
first byte of an operator. -/
inductive Ends : Option Binop → Bool → List UInt8 → Prop
  | nil : Ends binop neg []
  | close : Ends binop neg (ch ')' :: rest)
  | binop : binopOf c = some op → Ends none false [c]

def Reads (s : List UInt8) (r : Reading) : Prop :=
  ∃ binop neg rest, Scans s r binop neg rest ∧ Ends binop neg rest

/-- The expression behind what has been read already. -/
def Exp.onto (r : Reading) (binop : Option Binop) (neg : Bool) : Exp → Reading
  | .id name => .id r binop neg name
  | .not e => e.onto r binop (!neg)
  | .group e => .group r binop neg (e.onto .empty none false)
  | .and a b => b.onto (a.onto r binop neg) (some .and) false
  | .or a b => b.onto (a.onto r binop neg) (some .or) false

/-- The reading of an expression: `&&` and `||` from left to right, as if neither bound
tighter. -/
def Exp.reading (e : Exp) : Reading := e.onto .empty none false

variable {twice : Bool} {l : Level} {e : Exp} {s t u b rest : List UInt8} {r : Reading}
  {binop : Option Binop} {neg : Bool} {c : UInt8}

theorem Writes.ne_nil (h : Writes twice l e t) : t ≠ [] := by
  induction h with
  | id _ hne => exact List.append_ne_nil_of_right_ne_nil _ hne
  | not => exact List.append_ne_nil_of_right_ne_nil _ (List.cons_ne_nil _ _)
  | group => exact List.append_ne_nil_of_right_ne_nil _ (List.cons_ne_nil _ _)
  | one _ ih => exact ih
  | and _ _ _ ih => exact List.append_ne_nil_of_left_ne_nil ih _
  | only _ ih => exact ih
  | or _ _ _ ih => exact List.append_ne_nil_of_left_ne_nil ih _

theorem Scans.blanks (hb : Blank b) (h : Scans s r binop neg (b ++ rest)) :
    Scans s r binop neg rest := by
  induction b with
  | nil => exact h
  | cons c b ih =>
    obtain ⟨hc, hb⟩ := List.forall_mem_cons.1 hb
    exact ih hb (h.blank hc)

theorem isId_blank (h : isBlank c) : isId c = false := by
  rw [isBlank, Bool.or_eq_true, beq_iff_eq, beq_iff_eq] at h
  rcases h with rfl | rfl <;> rfl

theorem head_blank_append (hb : Blank b) (hc : isId c = false) :
    ∀ d ∈ (b ++ c :: rest).head?, isId d = false := by
  cases b with
  | nil =>
    rintro d ⟨⟩
    exact hc
  | cons x b =>
    rintro d ⟨⟩
    exact isId_blank (hb x List.mem_cons_self)

theorem Writes.scans (h : Writes twice l e t) (hs : Scans s r binop neg (t ++ rest))
    (hrest : ∀ c ∈ rest.head?, isId c = false) :
    Scans s (e.onto r binop neg) none false rest := by
  induction h generalizing s r binop neg rest with
  | id hb hne hid =>
    rw [List.append_assoc] at hs
    exact .id (hs.blanks hb) hne hid hrest
  | not hb _ _ ih =>
    rw [List.append_assoc] at hs
    exact ih (hs.blanks hb).not hrest
  | group hb _ hb' ih =>
    rw [List.append_assoc, List.cons_append, List.append_assoc, List.append_assoc,
      List.singleton_append] at hs
    have hclose : isId (ch ')') = false := rfl
    exact .group (hs.blanks hb) ((ih .start (head_blank_append hb' hclose)).blanks hb')
  | one _ ih => exact ih hs hrest
  | and _ hb _ ih ih' =>
    rw [List.append_assoc, List.append_assoc] at hs
    have hleft := (ih hs (head_blank_append hb rfl)).blanks hb
    exact ih' (hleft.binop rfl) hrest
  | only _ ih => exact ih hs hrest
  | or _ hb _ ih ih' =>
    rw [List.append_assoc, List.append_assoc] at hs
    have hleft := (ih hs (head_blank_append hb rfl)).blanks hb
    exact ih' (hleft.binop rfl) hrest

/-- A valid expression is read from left to right. -/
theorem IsExp.reads (h : IsExp twice e s) : Reads s e.reading := by
  obtain ⟨t, b, rfl, ht, hb⟩ := h
  refine ⟨none, false, [], ?_, .nil⟩
  have hend : ∀ c ∈ b.head?, isId c = false := by
    intro c hc
    exact isId_blank (hb c (List.mem_of_mem_head? hc))
  have hscan := ht.scans .start hend
  rw [← List.append_nil b] at hscan ⊢
  exact hscan.blanks hb

end Misc.Stdmv
