import Mathlib.Data.List.Basic

namespace Misc.Dotjson
set_option autoImplicit true

/-- A `const char *p` is what is left of the text at `p`; what stands past it reads as the
NUL. -/
abbrev Ptr := List UInt8

@[simp] def ch (c : Char) : UInt8 := UInt8.ofNat c.toNat

def byteAt (p : Ptr) (i : Nat) : UInt8 := p.getD i 0

@[simp] theorem byteAt_nil (i : Nat) : byteAt [] i = 0 := by simp [byteAt]

@[simp] theorem byteAt_zero (c : UInt8) (p : Ptr) : byteAt (c :: p) 0 = c := rfl

@[simp] theorem byteAt_succ (c : UInt8) (p : Ptr) (i : Nat) :
    byteAt (c :: p) (i + 1) = byteAt p i := by simp [byteAt]

@[simp] theorem byteAt_one (c : UInt8) (p : Ptr) : byteAt (c :: p) 1 = byteAt p 0 :=
  byteAt_succ c p 0

theorem byteAt_eq (h : byteAt p 0 = c) (hc : c ≠ 0) : ∃ q, p = c :: q := by
  cases p with
  | nil => exact absurd h.symm hc
  | cons d q =>
    cases h
    exact ⟨q, rfl⟩

def isSpace (c : UInt8) : Bool :=
  c == ch ' ' || c == ch '\t' || c == ch '\n' || c == ch '\r'

/-- `IGNORE_CHARS` without the comment feature. -/
def ignoreSpace (p : Ptr) : Ptr := p.dropWhile isSpace

def minBucket (n : Nat) : Nat :=
  let n := n - 1
  let n := n ||| n >>> 1
  let n := n ||| n >>> 2
  let n := n ||| n >>> 4
  let n := n ||| n >>> 8
  let n := n ||| n >>> 16
  n + 1

/-- The bytes stored through `u8`; the value returned is their number. -/
def uc2Utf8 (uc : Nat) : List UInt8 :=
  if uc ≤ 0x7f then [UInt8.ofNat uc]
  else if uc ≤ 0x7ff then
    [UInt8.ofNat (0xc0 ||| uc >>> 6), UInt8.ofNat (0x80 ||| (uc &&& 0x3f))]
  else if uc ≤ 0xffff then
    [UInt8.ofNat (0xe0 ||| uc >>> 12), UInt8.ofNat (0x80 ||| (uc >>> 6 &&& 0x3f)),
      UInt8.ofNat (0x80 ||| (uc &&& 0x3f))]
  else if uc ≤ 0x1fffff then
    [UInt8.ofNat (0xf0 ||| uc >>> 18), UInt8.ofNat (0x80 ||| (uc >>> 12 &&& 0x3f)),
      UInt8.ofNat (0x80 ||| (uc >>> 6 &&& 0x3f)), UInt8.ofNat (0x80 ||| (uc &&& 0x3f))]
  else if uc ≤ 0x3ffffff then
    [UInt8.ofNat (0xf8 ||| uc >>> 24), UInt8.ofNat (0x80 ||| (uc >>> 18 &&& 0x3f)),
      UInt8.ofNat (0x80 ||| (uc >>> 12 &&& 0x3f)), UInt8.ofNat (0x80 ||| (uc >>> 6 &&& 0x3f)),
      UInt8.ofNat (0x80 ||| (uc &&& 0x3f))]
  else if uc ≤ 0x7fffffff then
    [UInt8.ofNat (0xfc ||| uc >>> 30), UInt8.ofNat (0x80 ||| (uc >>> 24 &&& 0x3f)),
      UInt8.ofNat (0x80 ||| (uc >>> 18 &&& 0x3f)), UInt8.ofNat (0x80 ||| (uc >>> 12 &&& 0x3f)),
      UInt8.ofNat (0x80 ||| (uc >>> 6 &&& 0x3f)), UInt8.ofNat (0x80 ||| (uc &&& 0x3f))]
  else []

/-- The stores through a `char *`, each with its index, in the order in which they are made. -/
abbrev Writes := List (Nat × UInt8)

namespace Writes

/-- What a cell holds after the stores; a cell that none has reached reads as 0. -/
def cell (w : Writes) (i : Nat) : UInt8 := w.foldl (fun v x => if x.1 = i then x.2 else v) 0

def bytes (w : Writes) (n : Nat) : List UInt8 := (List.range n).map w.cell

def shift (r : Nat) (w : Writes) : Writes := w.map fun x => (r + x.1, x.2)

end Writes

def place : Nat → List UInt8 → Writes
  | _, [] => []
  | n, c :: s => (n, c) :: place (n + 1) s

/-- The value of `c` as a digit in the body of the loop over `\uXXXX`. -/
def hexDigit (c : UInt8) : Option Nat :=
  if ch '0' ≤ c ∧ c ≤ ch '9' then some (c &&& 0x0f).toNat
  else if (ch 'A' ≤ c ∧ c ≤ ch 'F') ∨ (ch 'a' ≤ c ∧ c ≤ ch 'f') then
    some ((c &&& 0x0f).toNat + 9)
  else none

/-- `for (i = 1; i <= 4; i++)`; `none` is its `return 0`. -/
def hexFour (p : Ptr) : Option Nat :=
  [1, 2, 3, 4].foldlM (fun uc i => (hexDigit (byteAt p i)).map (uc <<< 4 ||| ·)) 0

/-- The inner `switch` over the byte after a backslash. -/
def unescapeChar (c : UInt8) : Option UInt8 :=
  if c = ch '"' then some (ch '"')
  else if c = ch '\\' then some (ch '\\')
  else if c = ch '/' then some (ch '/')
  else if c = ch 'b' then some 0x08
  else if c = ch 'f' then some 0x0c
  else if c = ch 'n' then some 0x0a
  else if c = ch 'r' then some 0x0d
  else if c = ch 't' then some 0x09
  else none

/-- `if (n < l) buf[n] = c;`. -/
def store (l n : Nat) (c : UInt8) (w : Writes) : Writes := if n < l then w ++ [(n, c)] else w

/-- `while (*p != '"')`; `none` is a `return 0`. The first argument bounds the turns. -/
def unescapeLoop (l : Nat) : Nat → Ptr → Nat → Writes → Option (Ptr × Nat × Writes)
  | 0, _, _, _ => none
  | k + 1, p, n, w =>
    if byteAt p 0 = ch '"' then some (p, n, w)
    else if byteAt p 0 = 0 then none
    else if byteAt p 0 = ch '\\' then
      let p := p.drop 1
      if byteAt p 0 = ch 'u' then
        match hexFour p with
        | none => none
        | some uc =>
          let i := (uc2Utf8 uc).length
          unescapeLoop l k (p.drop 5) (n + i) (if n + i ≤ l then
            w ++ place n (uc2Utf8 uc) else w)
      else
        match unescapeChar (byteAt p 0) with
        | none => none
        | some c => unescapeLoop l k (p.drop 1) (n + 1) (store l n c w)
    else unescapeLoop l k (p.drop 1) (n + 1) (store l n (byteAt p 0) w)

/-- The count returned, the value left in `*len` and the stores. The limit is 0 without a buffer
and `*len` with one; `none` is the return of 0. -/
def unescapeStr (s : Ptr) (l : Nat) : Option (Nat × Nat × Writes) :=
  if byteAt s 0 = ch '"' then
    (unescapeLoop l s.length (s.drop 1) 0 []).map fun r =>
      (s.length - (r.1.drop 1).length, r.2.1, r.2.2)
  else none

end Misc.Dotjson
