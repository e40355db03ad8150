import Misc.Re0.Nfa

namespace Misc.Re0
set_option autoImplicit true

@[simp] def ch (c : Char) : UInt8 := UInt8.ofNat c.toNat

/-- The operators `*`, `&`, which is never written, `|`, `(` and `)`. -/
inductive Op
  | star | cat | or | lpar | rpar
  deriving DecidableEq, Repr

/-- `priority`; what is not in the map has priority zero. -/
def Op.priority : Op → Nat
  | .lpar => 1
  | .or => 2
  | .cat => 3
  | .star | .rpar => 0

/-- The stack of automata, the top first, and their states. -/
structure Built where
  nfastack : List NFA
  heap : Heap

structure Parser extends Built where
  opstack : List Op

/-- `apply_op`; `none` is an index out of range. -/
def Built.applyOp (b : Built) : Op → Option Built
  | .star =>
    match b.nfastack with
    | x :: st =>
      let (n, h) := nfaStar x b.heap
      some ⟨n :: st, h⟩
    | [] => none
  | .cat =>
    match b.nfastack with
    | y :: x :: st =>
      let (n, h) := nfaCat x y b.heap
      some ⟨n :: st, h⟩
    | _ => none
  | .or =>
    match b.nfastack with
    | y :: x :: st =>
      let (n, h) := nfaOr x y b.heap
      some ⟨n :: st, h⟩
    | _ => none
  | .lpar | .rpar => some b

/-- The loop of `add_op` for a closing parenthesis. -/
def closeGroup : List Op → Built → Option Parser
  | [], b => some ⟨b, []⟩
  | top :: ops, b => if top = .lpar then some ⟨b, ops⟩ else (b.applyOp top).bind (closeGroup ops)

/-- The loop of `add_op` for a binary operator; it is the new operator that is applied. -/
def popOps (op : Op) : List Op → Built → Option Parser
  | [], b => some ⟨b, []⟩
  | top :: ops, b =>
    if top.priority < op.priority then some ⟨b, top :: ops⟩
      else (b.applyOp op).bind (popOps op ops)

def Parser.addOp (p : Parser) : Op → Option Parser
  | .star => (p.applyOp .star).map fun b => ⟨b, p.opstack⟩
  | .rpar => closeGroup p.opstack p.toBuilt
  | .cat => (popOps .cat p.opstack p.toBuilt).map fun p =>
    { p with opstack := .cat :: p.opstack }
  | .or => (popOps .or p.opstack p.toBuilt).map fun p => { p with opstack := .or :: p.opstack }
  | .lpar => some { p with opstack := .lpar :: p.opstack }

/-- The byte that an escaped one stands for. -/
def escaped (c : UInt8) : UInt8 :=
  if c = ch 'n' then ch '\n' else if c = ch 't' then ch '\t'
    else if c = ch 'r' then ch '\r' else c

/-- The variables of the loop of `REtoNFA`. -/
structure Scan extends Parser where
  cat : Bool
  escape : Bool

/-- `add_op('&')` if a value stands right before. -/
def Scan.join (s : Scan) : Option Parser := if s.cat then s.addOp .cat else some s.toParser

def Scan.literal (s : Scan) (c : UInt8) : Option Scan :=
  s.join.map fun p =>
    let (n, h) := nfaChar c p.heap
    ⟨⟨⟨n :: p.nfastack, h⟩, p.opstack⟩, true, false⟩

def Scan.byte (s : Scan) (c : UInt8) : Option Scan :=
  if s.escape then s.literal (escaped c)
  else if c = ch '\\' then some { s with escape := true }
  else if c = ch '(' then s.join.bind fun p => (p.addOp .lpar).map fun p => ⟨p, false, false⟩
  else if c = ch '*' then (s.addOp .star).map fun p => ⟨p, true, false⟩
  else if c = ch '|' then (s.addOp .or).map fun p => ⟨p, false, false⟩
  else if c = ch ')' then (s.addOp .rpar).map fun p => ⟨p, true, false⟩
  else s.literal c

def Scan.bytes : List UInt8 → Scan → Option Scan
  | [], s => some s
  | c :: exp, s => (s.byte c).bind (Scan.bytes exp)

/-- The operators that are left are applied from the top. -/
def applyOps : List Op → Built → Option Built
  | [], b => some b
  | op :: ops, b => (b.applyOp op).bind (applyOps ops)

def Scan.start : Scan := ⟨⟨⟨[], .empty⟩, []⟩, false, false⟩

def REtoNFA (exp : List UInt8) : Option (NFA × Heap) :=
  (Scan.bytes exp .start).bind fun s =>
    (applyOps s.opstack s.toBuilt).bind fun b =>
      b.nfastack.getLast?.map fun n => (n, b.heap)

/-! ## Expressions -/

/-- An expression as it is written; a group stands in parentheses. -/
inductive Exp
  | char (c : UInt8)
  | group (e : Exp)
  | star (e : Exp)
  | cat (a b : Exp)
  | or (a b : Exp)
  deriving DecidableEq, Repr

/-- Where an expression stands: what `*` may follow, what concatenation may join, and the
rest. -/
inductive Level
  | value | concat | alt

/-- The text of an expression. `*` binds tighter than concatenation, and that tighter than `|`;
both are read from the left. -/
inductive Writes : Level → Exp → List UInt8 → Prop
  | plain (c : UInt8) : c ≠ ch '\\' → c ≠ ch '(' → c ≠ ch '*' → c ≠ ch '|' → c ≠ ch ')' →
      Writes .value (.char c) [c]
  | escape (c : UInt8) : Writes .value (.char (escaped c)) [ch '\\', c]
  | group : Writes .alt e t → Writes .value (.group e) (ch '(' :: (t ++ [ch ')']))
  | star : Writes .value e t → Writes .value (.star e) (t ++ [ch '*'])
  | one : Writes .value e t → Writes .concat e t
  | cat : Writes .concat a t → Writes .value b u → Writes .concat (.cat a b) (t ++ u)
  | only : Writes .concat e t → Writes .alt e t
  | or : Writes .alt a t → Writes .concat b u → Writes .alt (.or a b) (t ++ ch '|' :: u)

def Exp.regex : Exp → RegularExpression UInt8
  | .char c => .char c
  | .group e => e.regex
  | .star e => e.regex.star
  | .cat a b => a.regex * b.regex
  | .or a b => a.regex + b.regex

mutual

def Exp.built : Exp → RegularExpression UInt8
  | .char c => .char c
  | .group e => e.built
  | .star e => e.built.star
  | .cat a b => a.built * b.built
  | .or a b => a.before + b.built

/-- What is built for an expression in front of `|`, which is then applied in place of the
concatenation that is still waiting. -/
def Exp.before : Exp → RegularExpression UInt8
  | .char c => .char c
  | .group e => e.built
  | .star e => e.built.star
  | .cat a b => a.built + b.built
  | .or a b => a.before + b.before

end

end Misc.Re0
