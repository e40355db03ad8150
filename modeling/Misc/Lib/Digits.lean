import Mathlib

namespace Misc.Lib
set_option autoImplicit true

/-- The digits of a number in base 128, the lowest first, each but the last with its high bit
set; at most the given number of digits. -/
def base128 : Nat → Nat → List UInt8
  | 0, _ => []
  | k + 1, n =>
    if n < 128 then [UInt8.ofNat n] else UInt8.ofNat (n % 128 + 128) :: base128 k (n / 128)

/-- Reads a number in base 128 and returns what follows it. -/
def readBase128 : Nat → List UInt8 → Option (Nat × List UInt8)
  | 0, _ => none
  | _ + 1, [] => none
  | k + 1, c :: b =>
    if c.toNat < 128 then some (c.toNat, b)
    else (readBase128 k b).map fun r => (c.toNat - 128 + 128 * r.1, r.2)

def littleEndian : Nat → Nat → List UInt8
  | 0, _ => []
  | k + 1, n => UInt8.ofNat (n % 256) :: littleEndian k (n / 256)

def ofLittleEndian (b : List UInt8) : Nat := b.foldr (fun c n => c.toNat + 256 * n) 0

/-- The signed numbers in the order 0, -1, 1, -2, and so on. -/
def zigzag (v : Int64) : UInt64 := if v < 0 then ~~~(v.toUInt64 <<< 1) else v.toUInt64 <<< 1

def unzigzag (u : UInt64) : Int64 :=
  if u &&& 1 = 0 then (u >>> 1).toInt64 else ~~~(u >>> 1).toInt64

theorem toNat_ofNat_byte {n : Nat} (h : n < 256) : (UInt8.ofNat n).toNat = n :=
  UInt8.toNat_ofNat_of_lt h

theorem base128_ne_nil (k n : Nat) : base128 (k + 1) n ≠ [] := by
  rw [base128]
  split_ifs <;> exact List.cons_ne_nil _ _

theorem readBase128_base128 {k n : Nat} (hk : 0 < k) (h : n < 128 ^ k) (b : List UInt8) :
    readBase128 k (base128 k n ++ b) = some (n, b) := by
  induction k generalizing n with
  | zero => exact absurd hk (Nat.lt_irrefl 0)
  | succ k ih =>
    rw [base128]
    split_ifs with hn
    · have hc : (UInt8.ofNat n).toNat = n := toNat_ofNat_byte (by omega)
      rw [List.singleton_append, readBase128, hc, if_pos hn]
    · have hc : (UInt8.ofNat (n % 128 + 128)).toNat = n % 128 + 128 :=
        toNat_ofNat_byte (by omega)
      have hdiv : n / 128 < 128 ^ k := by
        rw [Nat.div_lt_iff_lt_mul (by decide)]
        rwa [Nat.pow_succ] at h
      have hk : 0 < k := by
        rcases Nat.eq_zero_or_pos k with rfl | hk
        · rw [Nat.pow_zero] at hdiv
          omega
        · exact hk
      rw [List.cons_append, readBase128, hc, if_neg (by omega), ih hk hdiv, Option.map_some]
      congr 2
      omega

theorem littleEndian_length (k n : Nat) : (littleEndian k n).length = k := by
  induction k generalizing n with
  | zero => rfl
  | succ k ih => rw [littleEndian, List.length_cons, ih]

theorem littleEndian_add (j k n : Nat) :
    littleEndian (j + k) n = littleEndian j n ++ littleEndian k (n / 256 ^ j) := by
  induction j generalizing n with
  | zero => rw [Nat.zero_add, Nat.pow_zero, Nat.div_one]; rfl
  | succ j ih =>
    rw [Nat.succ_add, littleEndian, ih, Nat.div_div_eq_div_mul, Nat.pow_succ', littleEndian]
    rfl

theorem littleEndian_mod (k n : Nat) : littleEndian k (n % 256 ^ k) = littleEndian k n := by
  induction k generalizing n with
  | zero => rfl
  | succ k ih =>
    have hdvd : 256 ∣ 256 ^ (k + 1) := ⟨256 ^ k, Nat.pow_succ'⟩
    rw [littleEndian, littleEndian, Nat.mod_mod_of_dvd _ hdvd, Nat.pow_succ',
      Nat.mod_mul_right_div_self, ih]

theorem ofLittleEndian_littleEndian {k n : Nat} (h : n < 256 ^ k) :
    ofLittleEndian (littleEndian k n) = n := by
  induction k generalizing n with
  | zero =>
    rw [Nat.pow_zero] at h
    exact (Nat.lt_one_iff.1 h).symm
  | succ k ih =>
    have hdiv : n / 256 < 256 ^ k := by
      rw [Nat.div_lt_iff_lt_mul (by decide)]
      rwa [Nat.pow_succ] at h
    have hc : (UInt8.ofNat (n % 256)).toNat = n % 256 := toNat_ofNat_byte (by omega)
    have ih := ih hdiv
    rw [ofLittleEndian] at ih ⊢
    rw [littleEndian, List.foldr_cons, ih, hc]
    omega

theorem ofLittleEndian_lt (b : List UInt8) : ofLittleEndian b < 256 ^ b.length := by
  induction b with
  | nil => exact Nat.one_pos
  | cons c b ih =>
    have hc : c.toNat < 256 := c.toNat_lt
    rw [ofLittleEndian] at ih ⊢
    rw [List.foldr_cons, List.length_cons, Nat.pow_succ]
    omega

theorem littleEndian_ofLittleEndian (b : List UInt8) :
    littleEndian b.length (ofLittleEndian b) = b := by
  induction b with
  | nil => rfl
  | cons c b ih =>
    have hc : c.toNat < 256 := c.toNat_lt
    rw [ofLittleEndian] at ih ⊢
    rw [List.length_cons, List.foldr_cons, littleEndian, Nat.add_mul_mod_self_left,
      Nat.mod_eq_of_lt hc,
      UInt8.ofNat_toNat, Nat.add_mul_div_left _ _ (by decide),
        Nat.div_eq_of_lt hc, Nat.zero_add, ih]

theorem shiftLeft_and_one (b : BitVec 64) : b <<< 1 &&& 1 = 0 := by
  ext i hi
  cases i <;> simp

theorem not_shiftLeft_and_one (b : BitVec 64) : ~~~(b <<< 1) &&& 1 = 1 := by
  ext i hi
  cases i <;> simp

theorem not_shiftLeft_shiftRight {b : BitVec 64} (h : b.msb = true) :
    ~~~(b <<< 1) >>> 1 = ~~~b := by
  rw [BitVec.msb_eq_getLsbD_last] at h
  ext i hi
  rw [BitVec.getElem_ushiftRight, BitVec.getLsbD_not,
    BitVec.getLsbD_shiftLeft, BitVec.getElem_not]
  rcases Nat.lt_or_ge i 63 with hlt | hge
  · simp
    grind
  · obtain rfl : i = 63 := by omega
    simpa using h

theorem shiftLeft_shiftRight {b : BitVec 64} (h : b.msb = false) : b <<< 1 >>> 1 = b := by
  rw [BitVec.msb_eq_getLsbD_last] at h
  ext i hi
  rw [BitVec.getElem_ushiftRight, BitVec.getLsbD_shiftLeft]
  rcases Nat.lt_or_ge i 63 with hlt | hge
  · simp
    grind
  · obtain rfl : i = 63 := by omega
    simpa using h

theorem neg_iff_msb (v : Int64) : v < 0 ↔ v.toBitVec.msb = true := by
  rw [Int64.lt_iff_toBitVec_slt, Int64.toBitVec_zero, BitVec.msb_eq_toInt,
    BitVec.slt_iff_toInt_lt, decide_eq_true_iff]
  rfl

theorem unzigzag_zigzag (v : Int64) : unzigzag (zigzag v) = v := by
  rw [zigzag, unzigzag]
  apply Int64.toBitVec_inj.1
  split_ifs with hneg hlow hlow
  · have hone := not_shiftLeft_and_one v.toBitVec
    have hzero : ~~~(v.toBitVec <<< 1) &&& 1 = 0 := by simpa using congrArg UInt64.toBitVec hlow
    rw [hone] at hzero
    exact absurd hzero (by decide)
  · have hback := not_shiftLeft_shiftRight ((neg_iff_msb v).1 hneg)
    have hbits : (~~~(~~~(v.toUInt64 <<< 1) >>> 1).toInt64).toBitVec =
        ~~~(~~~(v.toBitVec <<< 1) >>> 1) := by simp
    rw [hbits, hback, BitVec.not_not]
  · have hmsb : v.toBitVec.msb = false := by
      rw [neg_iff_msb] at hneg
      exact Bool.eq_false_iff.2 hneg
    simpa using shiftLeft_shiftRight hmsb
  · refine absurd ?_ hlow
    apply UInt64.toBitVec_inj.1
    simpa using shiftLeft_and_one v.toBitVec

end Misc.Lib
