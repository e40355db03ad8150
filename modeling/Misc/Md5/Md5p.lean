import Misc.Lib.Md5

namespace Misc.Md5
open Lib (littleEndian)
open Lib.Md5 (word)
set_option autoImplicit true

structure MD5p where
  _chain0 : UInt32
  _chain1 : UInt32
  _chain2 : UInt32
  _chain3 : UInt32
  _length0 : UInt32
  _length1 : UInt32
deriving DecidableEq

def md5_a : UInt32 := 0x67452301
def md5_b : UInt32 := 0xefcdab89
def md5_c : UInt32 := 0x98badcfe
def md5_d : UInt32 := 0x10325476

def MD5p.new : MD5p := ⟨md5_a, md5_b, md5_c, md5_d, 0, 0⟩

def md5_f (x y z : UInt32) : UInt32 := (x &&& y) ||| (~~~x &&& z)

def md5_g (x y z : UInt32) : UInt32 := (x &&& z) ||| (y &&& ~~~z)

def md5_h (x y z : UInt32) : UInt32 := x ^^^ y ^^^ z

def md5_i (x y z : UInt32) : UInt32 := y ^^^ (x ||| ~~~z)

def md5_rol (n c : UInt32) : UInt32 := (n <<< c) ||| (n >>> (32 - c))

def MD5p.addLength (md5 : MD5p) (length : UInt32) : MD5p :=
  if 0xffffffff - md5._length0 < length then
    { md5 with _length1 := md5._length1 + 1, _length0 := md5._length0 + length }
  else { md5 with _length0 := md5._length0 + length }

structure Vars where
  a : UInt32
  b : UInt32
  c : UInt32
  d : UInt32

inductive Var
  | a | b | c | d
deriving DecidableEq

def Vars.get (v : Vars) : Var → UInt32
  | .a => v.a
  | .b => v.b
  | .c => v.c
  | .d => v.d

def Vars.set (v : Vars) (x : Var) (w : UInt32) : Vars :=
  match x with
  | .a => { v with a := w }
  | .b => { v with b := w }
  | .c => { v with c := w }
  | .d => { v with d := w }

def ap (f : UInt32 → UInt32 → UInt32 → UInt32) (x y z : Var) (v : Vars) : UInt32 :=
  f (v.get x) (v.get y) (v.get z)

/-- The macro, which assigns to its first argument. -/
def MD5P_XX (x y : Var) (r : Vars → UInt32) (M s t : UInt32) (v : Vars) : Vars :=
  v.set x (v.get y + md5_rol (v.get x + r v + M + t) s)

/-- The body of `Update`, a statement each. -/
def lines (M : Nat → UInt32) : List (Vars → Vars) :=
  [MD5P_XX .a .b (ap md5_f .b .c .d) (M 0) 7 0xd76aa478,
   MD5P_XX .d .a (ap md5_f .a .b .c) (M 1) 12 0xe8c7b756,
   MD5P_XX .c .d (ap md5_f .d .a .b) (M 2) 17 0x242070db,
   MD5P_XX .b .c (ap md5_f .c .d .a) (M 3) 22 0xc1bdceee,
   MD5P_XX .a .b (ap md5_f .b .c .d) (M 4) 7 0xf57c0faf,
   MD5P_XX .d .a (ap md5_f .a .b .c) (M 5) 12 0x4787c62a,
   MD5P_XX .c .d (ap md5_f .d .a .b) (M 6) 17 0xa8304613,
   MD5P_XX .b .c (ap md5_f .c .d .a) (M 7) 22 0xfd469501,
   MD5P_XX .a .b (ap md5_f .b .c .d) (M 8) 7 0x698098d8,
   MD5P_XX .d .a (ap md5_f .a .b .c) (M 9) 12 0x8b44f7af,
   MD5P_XX .c .d (ap md5_f .d .a .b) (M 10) 17 0xffff5bb1,
   MD5P_XX .b .c (ap md5_f .c .d .a) (M 11) 22 0x895cd7be,
   MD5P_XX .a .b (ap md5_f .b .c .d) (M 12) 7 0x6b901122,
   MD5P_XX .d .a (ap md5_f .a .b .c) (M 13) 12 0xfd987193,
   MD5P_XX .c .d (ap md5_f .d .a .b) (M 14) 17 0xa679438e,
   MD5P_XX .b .c (ap md5_f .c .d .a) (M 15) 22 0x49b40821,
   MD5P_XX .a .b (ap md5_g .b .c .d) (M 1) 5 0xf61e2562,
   MD5P_XX .d .a (ap md5_g .a .b .c) (M 6) 9 0xc040b340,
   MD5P_XX .c .d (ap md5_g .d .a .b) (M 11) 14 0x265e5a51,
   MD5P_XX .b .c (ap md5_g .c .d .a) (M 0) 20 0xe9b6c7aa,
   MD5P_XX .a .b (ap md5_g .b .c .d) (M 5) 5 0xd62f105d,
   MD5P_XX .d .a (ap md5_g .a .b .c) (M 10) 9 0x2441453,
   MD5P_XX .c .d (ap md5_g .d .a .b) (M 15) 14 0xd8a1e681,
   MD5P_XX .b .c (ap md5_g .c .d .a) (M 4) 20 0xe7d3fbc8,
   MD5P_XX .a .b (ap md5_g .b .c .d) (M 9) 5 0x21e1cde6,
   MD5P_XX .d .a (ap md5_g .a .b .c) (M 14) 9 0xc33707d6,
   MD5P_XX .c .d (ap md5_g .d .a .b) (M 3) 14 0xf4d50d87,
   MD5P_XX .b .c (ap md5_g .c .d .a) (M 8) 20 0x455a14ed,
   MD5P_XX .a .b (ap md5_g .b .c .d) (M 13) 5 0xa9e3e905,
   MD5P_XX .d .a (ap md5_g .a .b .c) (M 2) 9 0xfcefa3f8,
   MD5P_XX .c .d (ap md5_g .d .a .b) (M 7) 14 0x676f02d9,
   MD5P_XX .b .c (ap md5_g .c .d .a) (M 12) 20 0x8d2a4c8a,
   MD5P_XX .a .b (ap md5_h .b .c .d) (M 5) 4 0xfffa3942,
   MD5P_XX .d .a (ap md5_h .a .b .c) (M 8) 11 0x8771f681,
   MD5P_XX .c .d (ap md5_h .d .a .b) (M 11) 16 0x6d9d6122,
   MD5P_XX .b .c (ap md5_h .c .d .a) (M 14) 23 0xfde5380c,
   MD5P_XX .a .b (ap md5_h .b .c .d) (M 1) 4 0xa4beea44,
   MD5P_XX .d .a (ap md5_h .a .b .c) (M 4) 11 0x4bdecfa9,
   MD5P_XX .c .d (ap md5_h .d .a .b) (M 7) 16 0xf6bb4b60,
   MD5P_XX .b .c (ap md5_h .c .d .a) (M 10) 23 0xbebfbc70,
   MD5P_XX .a .b (ap md5_h .b .c .d) (M 13) 4 0x289b7ec6,
   MD5P_XX .d .a (ap md5_h .a .b .c) (M 0) 11 0xeaa127fa,
   MD5P_XX .c .d (ap md5_h .d .a .b) (M 3) 16 0xd4ef3085,
   MD5P_XX .b .c (ap md5_h .c .d .a) (M 6) 23 0x4881d05,
   MD5P_XX .a .b (ap md5_h .b .c .d) (M 9) 4 0xd9d4d039,
   MD5P_XX .d .a (ap md5_h .a .b .c) (M 12) 11 0xe6db99e5,
   MD5P_XX .c .d (ap md5_h .d .a .b) (M 15) 16 0x1fa27cf8,
   MD5P_XX .b .c (ap md5_h .c .d .a) (M 2) 23 0xc4ac5665,
   MD5P_XX .a .b (ap md5_i .b .c .d) (M 0) 6 0xf4292244,
   MD5P_XX .d .a (ap md5_i .a .b .c) (M 7) 10 0x432aff97,
   MD5P_XX .c .d (ap md5_i .d .a .b) (M 14) 15 0xab9423a7,
   MD5P_XX .b .c (ap md5_i .c .d .a) (M 5) 21 0xfc93a039,
   MD5P_XX .a .b (ap md5_i .b .c .d) (M 12) 6 0x655b59c3,
   MD5P_XX .d .a (ap md5_i .a .b .c) (M 3) 10 0x8f0ccc92,
   MD5P_XX .c .d (ap md5_i .d .a .b) (M 10) 15 0xffeff47d,
   MD5P_XX .b .c (ap md5_i .c .d .a) (M 1) 21 0x85845dd1,
   MD5P_XX .a .b (ap md5_i .b .c .d) (M 8) 6 0x6fa87e4f,
   MD5P_XX .d .a (ap md5_i .a .b .c) (M 15) 10 0xfe2ce6e0,
   MD5P_XX .c .d (ap md5_i .d .a .b) (M 6) 15 0xa3014314,
   MD5P_XX .b .c (ap md5_i .c .d .a) (M 13) 21 0x4e0811a1,
   MD5P_XX .a .b (ap md5_i .b .c .d) (M 4) 6 0xf7537e82,
   MD5P_XX .d .a (ap md5_i .a .b .c) (M 11) 10 0xbd3af235,
   MD5P_XX .c .d (ap md5_i .d .a .b) (M 2) 15 0x2ad7d2bb,
   MD5P_XX .b .c (ap md5_i .c .d .a) (M 9) 21 0xeb86d391]

def MD5p.Update (md5 : MD5p) (M : Nat → UInt32) : MD5p :=
  let v : Vars := ⟨md5._chain0, md5._chain1, md5._chain2, md5._chain3⟩
  let v := (lines M).foldl (fun v line => line v) v
  { md5 with
    _chain0 := md5._chain0 + v.a, _chain1 := md5._chain1 + v.b,
    _chain2 := md5._chain2 + v.c, _chain3 := md5._chain3 + v.d : MD5p }.addLength 64

/-- A run that does not return a digest: it reads or writes outside its buffers, or is not
over. -/
inductive Fault
  | outside
  | running
deriving DecidableEq

def load (buffer : List UInt8) (p : Nat) : Except Fault (Nat → UInt32) :=
  if p + 64 ≤ buffer.length then .ok fun k => word buffer (p + 4 * k) else .error .outside

/-- Writes the next byte of the 128 of the padding. -/
def put (padding : List UInt8) (c : UInt8) : Except Fault (List UInt8) :=
  if padding.length < 128 then .ok (padding ++ [c]) else .error .outside

def putWord (padding : List UInt8) (w : UInt32) : Except Fault (List UInt8) :=
  if padding.length + 4 ≤ 128 then .ok (padding ++ littleEndian 4 w.toNat) else .error .outside

/-- `for (p = 0; p < l; p++)`, with what is left of `l`. -/
def copyTail (tail : List UInt8) : Nat → List UInt8 → Except Fault (List UInt8)
  | 0, padding => .ok padding
  | l + 1, padding =>
    match tail[padding.length]? with
    | none => .error .outside
    | some c => put padding c >>= copyTail tail l

/-- `while (--n > 0)` -/
def fill : Nat → List UInt8 → Except Fault (List UInt8)
  | 0, padding => .ok padding
  | n + 1, padding => if 0 < n then put padding 0 >>= fill n else .ok padding

/-- `l` is below 64, so the count of the padding is positive. -/
def padTail (l : Nat) (padding : List UInt8) : Except Fault (List UInt8) :=
  let n := (if 56 ≤ l then 120 else 56) - l
  if 0 < n then put padding 0x80 >>= fill n else .ok padding

def MD5p.Final (md5 : MD5p) (tail : List UInt8) (length : UInt32) : Except Fault MD5p := do
  let md5 := md5.addLength length
  let l := (md5._length0 &&& 0x3f).toNat
  let padding ← copyTail tail l []
  let padding ← padTail l padding
  let padding ← putWord padding (md5._length0 <<< 3)
  let padding ← putWord padding (md5._length1 <<< 3 ||| md5._length0 >>> 29)
  let M ← load padding 0
  let md5 := md5.Update M
  if 56 ≤ l then md5.Update <$> load padding 64 else .ok md5

def MD5p.Output (md5 : MD5p) : List UInt8 :=
  littleEndian 4 md5._chain0.toNat ++ littleEndian 4 md5._chain1.toNat ++
    littleEndian 4 md5._chain2.toNat ++ littleEndian 4 md5._chain3.toNat

/-- The loop of `GetSum`, whose position is a machine word. -/
def blocks (message : List UInt8) (length : UInt32) :
    Nat → MD5p → UInt32 → Except Fault (MD5p × UInt32)
  | 0, _, _ => .error .running
  | fuel + 1, md5, p =>
    if p + 64 ≤ length then do
      let M ← load message p.toNat
      blocks message length fuel (md5.Update M) (p + 64)
    else .ok (md5, p)

def GetSum (fuel : Nat) (message : List UInt8) (length : UInt32) :
    Except Fault (List UInt8) := do
  let (md5, p) ← blocks message length fuel .new 0
  let md5 ← md5.Final (message.drop p.toNat) (length - p)
  return md5.Output

end Misc.Md5
