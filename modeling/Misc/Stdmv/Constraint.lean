import Mathlib

namespace Misc.Stdmv
set_option autoImplicit true

@[simp] def ch (c : Char) : UInt8 := UInt8.ofNat c.toNat

/-- The part of `ctx` that a build constraint depends on; a tag that is not in the map is
false. -/
structure Ctx where
  goos : List UInt8
  goarch : List UInt8
  go1ver : Int
  gotags : List UInt8 → Bool

def isDigit (c : UInt8) : Bool := ch '0' ≤ c && c ≤ ch '9'

def isId (c : UInt8) : Bool :=
  (ch 'a' ≤ c && c ≤ ch 'z') || (ch 'A' ≤ c && c ≤ ch 'Z') || (ch '0' ≤ c && c ≤ ch '9') ||
    c == ch '.' || c == ch '_'

def isBlank (c : UInt8) : Bool := c == ch ' ' || c == ch '\t'

/-- The value of `strconv.ParseUint` in base 10: zero on a syntax error, and the greatest number
where a digit takes it out of range. -/
def parseUint (n : Nat) : List UInt8 → Nat
  | [] => n
  | c :: s =>
    if isDigit c then
      let n := n * 10 + (c - ch '0').toNat
      if 2 ^ 64 ≤ n then 2 ^ 64 - 1 else parseUint n s
    else 0

/-- The value of `strconv.Atoi`, whose error is dropped. -/
def atoi (s : List UInt8) : Int :=
  match s with
  | [] => 0
  | c :: t =>
    if c = ch '-' then -(min (parseUint 0 t) (2 ^ 63) : Nat)
    else (min (parseUint 0 (if c = ch '+' then t else s)) (2 ^ 63 - 1) : Nat)

def go1 : List UInt8 := [ch 'g', ch 'o', ch '1', ch '.']

def checkGoBuildable (ctx : Ctx) (id : List UInt8) : Bool :=
  if ctx.goos = id ∨ ctx.goarch = id ∨ ctx.gotags id then true
  else if go1.isPrefixOf id then atoi (id.drop 4) ≤ ctx.go1ver
  else false

inductive Binop
  | and | or
  deriving DecidableEq, Repr

def binopOf (c : UInt8) : Option Binop :=
  if c = ch '&' then some .and else if c = ch '|' then some .or else none

/-- The variables of `eval`; no operator is the zero byte. -/
structure Acc where
  reg : Bool := false
  not : Bool := false
  binop : Option Binop := none
  deriving DecidableEq, Repr

def combine : Option Binop → Bool → Bool → Bool
  | some .and, reg, unary => reg && unary
  | some .or, reg, unary => reg || unary
  | none, _, unary => unary

def Acc.operand (a : Acc) (unary : Bool) : Acc :=
  ⟨combine a.binop a.reg (if a.not then !unary else unary), false, none⟩

/-- What `eval` returns, what is left of the string, and `bad`. -/
structure Result where
  reg : Bool
  rest : List UInt8
  bad : Bool
  deriving DecidableEq, Repr

/-- Behind the call of `eval` for a parenthesis. -/
def Result.close (r : Result) : Result :=
  match r.rest with
  | c :: t => if c = ch ')' then { r with rest := t } else { r with bad := true }
  | [] => { r with bad := true }

variable (check : List UInt8 → Bool)

/-- `eval`; `none` is out of fuel. An operator takes two bytes, whatever the second one is. -/
def eval : Nat → Acc → List UInt8 → Option Result
  | 0, _, _ => none
  | n + 1, a, s =>
    match s.dropWhile isBlank with
    | [] => some ⟨a.reg, [], false⟩
    | c :: t =>
      if c = ch '!' then eval n { a with not := !a.not } t
      else match binopOf c with
        | some op =>
          if a.binop = none ∧ a.not = false then eval n { a with binop := some op } (t.drop 1)
          else some ⟨a.reg, c :: t, true⟩
        | none =>
          if c = ch ')' then some ⟨a.reg, c :: t, false⟩
          else if c = ch '(' then
            (eval n {} t).bind fun r =>
              let a := a.operand r.reg
              if r.close.bad then some ⟨a.reg, r.close.rest, true⟩ else eval n a r.close.rest
          else if isId c then
            eval n (a.operand (check ((c :: t).takeWhile isId))) ((c :: t).dropWhile isId)
          else some ⟨false, c :: t, true⟩

def ignore : List UInt8 := [ch 'i', ch 'g', ch 'n', ch 'o', ch 'r', ch 'e']

/-- The constraint without the two strings that have a value of their own. -/
def evalTop (n : Nat) (expr : List UInt8) : Option Bool :=
  (eval check n {} expr).map fun r => !r.bad && r.reg

def evalGoBuildConstraint (ctx : Ctx) (n : Nat) (expr : List UInt8) : Option Bool :=
  if expr = [] then some true
  else if expr = ignore then some false
  else evalTop (checkGoBuildable ctx) n expr

/-! ## Runs -/

def Evals (a : Acc) (s : List UInt8) (r : Result) : Prop := ∃ n, eval check n a s = some r

variable {check} {a : Acc} {s t : List UInt8} {r : Result} {c : UInt8}

theorem Result.close_length (r : Result) : r.close.rest.length ≤ r.rest.length := by
  obtain ⟨reg, rest, bad⟩ := r
  cases rest with
  | nil => exact Nat.le_refl _
  | cons c t =>
    rw [Result.close]
    dsimp only
    split_ifs
    · exact Nat.le_succ _
    · exact Nat.le_refl _

/-- Each round of the loop takes at least one byte, and what is left behind it is shorter. -/
theorem eval_terminates (n : Nat) (a : Acc) (s : List UInt8) (h : s.length < n) :
    ∃ r, eval check n a s = some r ∧ r.rest.length ≤ s.length := by
  induction n generalizing a s with
  | zero => exact absurd h (Nat.not_lt_zero _)
  | succ n ih =>
    have hblank := List.length_dropWhile_le isBlank s
    have hnext (a : Acc) (u : List UInt8) (hu : u.length < (s.dropWhile isBlank).length) :
        ∃ r, eval check n a u = some r ∧ r.rest.length ≤ s.length := by
      obtain ⟨r, hr, hlen⟩ := ih a u (by omega)
      exact ⟨r, hr, by omega⟩
    rw [eval]
    cases hs : s.dropWhile isBlank with
    | nil => exact ⟨_, rfl, Nat.zero_le _⟩
    | cons c t =>
      rw [hs] at hblank hnext
      dsimp only
      have ht : t.length < (c :: t).length := Nat.lt_succ_self _
      by_cases hnot : c = ch '!'
      · rw [if_pos hnot]
        exact hnext _ t ht
      · rw [if_neg hnot]
        cases binopOf c with
        | some op =>
          dsimp only
          split_ifs
          · apply hnext
            rw [List.length_drop]
            omega
          · exact ⟨_, rfl, hblank⟩
        | none =>
          dsimp only
          split_ifs with hclose hopen hid
          · exact ⟨_, rfl, hblank⟩
          · obtain ⟨r, hr, hlen⟩ := ih {} t (by omega)
            have hrest := r.close_length
            rw [hr, Option.bind_some]
            split_ifs
            · exact ⟨_, rfl, by dsimp only; omega⟩
            · exact hnext _ _ (by omega)
          · apply hnext
            rw [List.dropWhile_cons, if_pos hid]
            have hlen := List.length_dropWhile_le isId t
            omega
          · exact ⟨_, rfl, hblank⟩

theorem eval_mono {n m : Nat} (h : eval check n a s = some r) (hm : n ≤ m) :
    eval check m a s = some r := by
  induction n generalizing a s r m with
  | zero => cases h
  | succ n ih =>
    obtain ⟨m, rfl⟩ : ∃ k, m = k + 1 := ⟨m - 1, by omega⟩
    have hm : n ≤ m := by omega
    rw [eval] at h ⊢
    cases hs : s.dropWhile isBlank with
    | nil =>
      rw [hs] at h
      exact h
    | cons c t =>
      rw [hs] at h
      dsimp only at h ⊢
      by_cases hnot : c = ch '!'
      · rw [if_pos hnot] at h ⊢
        exact ih h hm
      · rw [if_neg hnot] at h ⊢
        cases hop : binopOf c with
        | some op =>
          rw [hop] at h
          dsimp only at h ⊢
          split_ifs at h ⊢
          · exact ih h hm
          · exact h
        | none =>
          rw [hop] at h
          dsimp only at h ⊢
          split_ifs at h ⊢ with hclose hopen hid
          · exact h
          · obtain ⟨i, hi, h⟩ := Option.bind_eq_some_iff.1 h
            rw [ih hi hm, Option.bind_some]
            split_ifs at h ⊢
            · exact h
            · exact ih h hm
          · exact ih h hm
          · exact h

theorem Evals.unique {r' : Result} (h : Evals check a s r) (h' : Evals check a s r') :
    r = r' := by
  obtain ⟨n, hn⟩ := h
  obtain ⟨m, hm⟩ := h'
  have hn := eval_mono hn (Nat.le_max_left n m)
  have hm := eval_mono hm (Nat.le_max_right n m)
  exact Option.some.inj (hn.symm.trans hm)

theorem Evals.eval (h : Evals check a s r) {n : Nat} (hn : s.length < n) :
    eval check n a s = some r := by
  obtain ⟨r', hr', -⟩ := @eval_terminates check n a s hn
  rw [hr', h.unique ⟨n, hr'⟩]

theorem exists_evals (check : List UInt8 → Bool) (a : Acc) (s : List UInt8) :
    ∃ r, Evals check a s r := by
  obtain ⟨r, hr, -⟩ := @eval_terminates check (s.length + 1) a s (Nat.lt_succ_self _)
  exact ⟨r, _, hr⟩

end Misc.Stdmv
