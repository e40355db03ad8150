import Misc.Lib.Digits

namespace Misc.Lib.Md5
set_option autoImplicit true

/-- The four words of the digest while it is computed. -/
structure Chain where
  A : UInt32
  B : UInt32
  C : UInt32
  D : UInt32
deriving DecidableEq

def Chain.start : Chain := ⟨0x67452301, 0xefcdab89, 0x98badcfe, 0x10325476⟩

def rotl (x : UInt32) (s : Nat) : UInt32 := ⟨x.toBitVec.rotateLeft s⟩

/-- The auxiliary function of each of the four rounds. -/
def aux (round : Nat) (x y z : UInt32) : UInt32 :=
  match round with
  | 0 => (x &&& y) ||| (~~~x &&& z)
  | 1 => (x &&& z) ||| (y &&& ~~~z)
  | 2 => x ^^^ y ^^^ z
  | _ => y ^^^ (x ||| ~~~z)

/-- The word of the block that an operation adds. -/
def index (i : Nat) : Nat :=
  match i / 16 with
  | 0 => i % 16
  | 1 => (1 + 5 * i) % 16
  | 2 => (5 + 3 * i) % 16
  | _ => 7 * i % 16

def shifts : List (List Nat) :=
  [[7, 12, 17, 22], [5, 9, 14, 20], [4, 11, 16, 23], [6, 10, 15, 21]]

def shift (i : Nat) : Nat := (shifts.getD (i / 16) []).getD (i % 4) 0

/-- The integer parts of `2 ^ 32 * |sin i|` for `i` from 1 to 64. -/
def table : List UInt32 :=
  [0xd76aa478, 0xe8c7b756, 0x242070db, 0xc1bdceee,
   0xf57c0faf, 0x4787c62a, 0xa8304613, 0xfd469501,
   0x698098d8, 0x8b44f7af, 0xffff5bb1, 0x895cd7be,
   0x6b901122, 0xfd987193, 0xa679438e, 0x49b40821,
   0xf61e2562, 0xc040b340, 0x265e5a51, 0xe9b6c7aa,
   0xd62f105d, 0x02441453, 0xd8a1e681, 0xe7d3fbc8,
   0x21e1cde6, 0xc33707d6, 0xf4d50d87, 0x455a14ed,
   0xa9e3e905, 0xfcefa3f8, 0x676f02d9, 0x8d2a4c8a,
   0xfffa3942, 0x8771f681, 0x6d9d6122, 0xfde5380c,
   0xa4beea44, 0x4bdecfa9, 0xf6bb4b60, 0xbebfbc70,
   0x289b7ec6, 0xeaa127fa, 0xd4ef3085, 0x04881d05,
   0xd9d4d039, 0xe6db99e5, 0x1fa27cf8, 0xc4ac5665,
   0xf4292244, 0x432aff97, 0xab9423a7, 0xfc93a039,
   0x655b59c3, 0x8f0ccc92, 0xffeff47d, 0x85845dd1,
   0x6fa87e4f, 0xfe2ce6e0, 0xa3014314, 0x4e0811a1,
   0xf7537e82, 0xbd3af235, 0x2ad7d2bb, 0xeb86d391]

/-- One of the 64 operations on a block. Each writes the first word, which becomes the second of
the next operation. -/
def op (X : Nat → UInt32) (c : Chain) (i : Nat) : Chain :=
  ⟨c.D, c.B + rotl (c.A + aux (i / 16) c.B c.C c.D + X (index i) + table.getD i 0) (shift i),
    c.B, c.C⟩

def ops (X : Nat → UInt32) (c : Chain) : Chain := (List.range 64).foldl (op X) c

def compress (c : Chain) (X : Nat → UInt32) : Chain :=
  ⟨c.A + (ops X c).A, c.B + (ops X c).B, c.C + (ops X c).C, c.D + (ops X c).D⟩

/-- The number of zero bytes of the padding. -/
def zeros (n : Nat) : Nat := (119 - n % 64) % 64

def pad (b : List UInt8) : List UInt8 :=
  b ++ 0x80 :: List.replicate (zeros b.length) 0 ++ littleEndian 8 (8 * b.length)

/-- The word that starts at a byte, the lowest byte first. -/
def word (b : List UInt8) (p : Nat) : UInt32 := UInt32.ofNat (ofLittleEndian ((b.drop p).take 4))

/-- The words after the given number of blocks. -/
def chain (b : List UInt8) (n : Nat) : Chain :=
  (List.range n).foldl (fun c i => compress c fun k => word b (64 * i + 4 * k)) .start

def output (c : Chain) : List UInt8 :=
  littleEndian 4 c.A.toNat ++ littleEndian 4 c.B.toNat ++ littleEndian 4 c.C.toNat ++
    littleEndian 4 c.D.toNat

def digest (b : List UInt8) : List UInt8 := output (chain (pad b) ((pad b).length / 64))

example : digest [0x61, 0x62, 0x63] =
    [0x90, 0x01, 0x50, 0x98, 0x3c, 0xd2, 0x4f, 0xb0,
      0xd6, 0x96, 0x3f, 0x7d, 0x28, 0xe1, 0x7f, 0x72] := by
  decide +kernel

theorem word_drop (b : List UInt8) (n p : Nat) : word (b.drop n) p = word b (n + p) := by
  rw [word, word, List.drop_drop]

theorem word_append {p : Nat} {b : List UInt8} (h : p + 4 ≤ b.length) (t : List UInt8) :
    word (b ++ t) p = word b p := by
  have hp : 4 ≤ (b.drop p).length := by
    rw [List.length_drop]
    omega
  rw [word, word, List.drop_append_of_le_length (by omega), List.take_append_of_le_length hp]

theorem chain_zero (b : List UInt8) : chain b 0 = .start := by
  rw [chain, List.range_zero, List.foldl_nil]

theorem chain_succ (b : List UInt8) (n : Nat) :
    chain b (n + 1) = compress (chain b n) fun k => word b (64 * n + 4 * k) := by
  rw [chain, List.range_succ, List.foldl_append]
  rfl

theorem index_lt (i : Nat) : index i < 16 := by
  unfold index
  split <;> exact Nat.mod_lt _ (by decide)

theorem compress_congr {X Y : Nat → UInt32} (h : ∀ k < 16, X k = Y k) (c : Chain) :
    compress c X = compress c Y := by
  have hop : op X = op Y := by
    funext c i
    rw [op, op, h _ (index_lt i)]
  rw [compress, compress, ops, ops, hop]

theorem chain_append {n : Nat} {b : List UInt8} (h : 64 * n ≤ b.length) (t : List UInt8) :
    chain (b ++ t) n = chain b n := by
  induction n with
  | zero => rw [chain_zero, chain_zero]
  | succ n ih =>
    rw [chain_succ, chain_succ, ih (by omega)]
    apply compress_congr
    intro k hk
    exact word_append (by omega) t

theorem pad_length (b : List UInt8) : (pad b).length = b.length + zeros b.length + 9 := by
  rw [pad, List.length_append, List.length_append, List.length_cons, List.length_replicate,
    littleEndian_length]
  omega

end Misc.Lib.Md5
