import Mathlib
import Misc.Md5.Md5p

namespace Misc.Md5
open Lib Lib.Md5
set_option autoImplicit true

theorem md5_rol_eq (x : UInt32) {s : Nat} (h0 : 0 < s) (h : s < 32) :
    md5_rol x (UInt32.ofNat s) = rotl x s := by
  apply UInt32.toBitVec_inj.1
  have hs : (UInt32.ofNat s).toBitVec.toNat = s := by
    rw [UInt32.toBitVec_ofNat', BitVec.toNat_ofNat]
    omega
  have hl : ((UInt32.ofNat s).toBitVec % 32).toNat = s := by
    rw [BitVec.toNat_umod, hs]
    exact Nat.mod_eq_of_lt h
  have hr : ((32 - UInt32.ofNat s).toBitVec % 32).toNat = 32 - s := by
    rw [BitVec.toNat_umod, UInt32.toBitVec_sub, BitVec.toNat_sub, hs]
    simp
    omega
  rw [md5_rol, rotl, UInt32.toBitVec_or, UInt32.toBitVec_shiftLeft, UInt32.toBitVec_shiftRight,
    BitVec.shiftLeft_eq', BitVec.ushiftRight_eq', hl, hr,
      BitVec.rotateLeft_def, Nat.mod_eq_of_lt h]

def name (i : Nat) : Var :=
  match i % 4 with
  | 0 => .a
  | 1 => .d
  | 2 => .c
  | _ => .b

def fn (round : Nat) : UInt32 → UInt32 → UInt32 → UInt32 :=
  match round with
  | 0 => md5_f
  | 1 => md5_g
  | 2 => md5_h
  | _ => md5_i

theorem fn_eq (r : Nat) : fn r = aux r := by
  match r with
  | 0 | 1 | 2 | _ + 3 => rfl

def line (M : Nat → UInt32) (i : Nat) : Vars → Vars :=
  MD5P_XX (name i) (name (i + 3)) (ap (fn (i / 16)) (name (i + 3)) (name (i + 2)) (name (i + 1)))
    (M (index i)) (UInt32.ofNat (shift i)) (table.getD i 0)

theorem lines_eq (M : Nat → UInt32) : lines M = (List.range 64).map (line M) := rfl

/-- The variables in the order in which the operation takes them. -/
def Vars.view (v : Vars) (i : Nat) : Chain :=
  ⟨v.get (name i), v.get (name (i + 3)), v.get (name (i + 2)), v.get (name (i + 1))⟩

@[simp] theorem Vars.get_set (v : Vars) (x y : Var) (w : UInt32) :
    (v.set x w).get y = if y = x then w else v.get y := by
  cases x <;> cases y <;> rfl

theorem name_period (i : Nat) : name (i + 4) = name i := by
  rw [name, Nat.add_mod_right, ← name]

theorem name_ne {i j : Nat} (h : i % 4 ≠ j % 4) : name i ≠ name j := by
  have hi : i % 4 = 0 ∨ i % 4 = 1 ∨ i % 4 = 2 ∨ i % 4 = 3 := by omega
  have hj : j % 4 = 0 ∨ j % 4 = 1 ∨ j % 4 = 2 ∨ j % 4 = 3 := by omega
  simp only [name]
  rcases hi with hi | hi | hi | hi <;> rcases hj with hj | hj | hj | hj <;>
    simp [hi, hj] <;> omega

theorem shift_bounds {i : Nat} (h : i < 64) : 0 < shift i ∧ shift i < 32 := by
  revert i
  decide

theorem line_view {i : Nat} (h : i < 64) (M : Nat → UInt32) (v : Vars) :
    (line M i v).view (i + 1) = op M (v.view i) i := by
  have hr : ∀ x, md5_rol x (UInt32.ofNat (shift i)) = rotl x (shift i) := fun x =>
    md5_rol_eq x (shift_bounds h).1 (shift_bounds h).2
  have h1 : name (i + 1) ≠ name i := name_ne (by omega)
  have h2 : name (i + 2) ≠ name i := name_ne (by omega)
  have h3 : name (i + 3) ≠ name i := name_ne (by omega)
  simp only [line, MD5P_XX, Vars.view, op, Vars.get_set, hr, ap, fn_eq, name_period, if_neg h1,
    if_neg h2, if_neg h3, if_true]

theorem lines_view {n : Nat} (h : n ≤ 64) (M : Nat → UInt32) (v : Vars) :
    (((List.range n).map (line M)).foldl (fun v line => line v) v).view n =
      (List.range n).foldl (op M) (v.view 0) := by
  induction n with
  | zero => rfl
  | succ n ih =>
    rw [List.range_succ, List.map_append, List.foldl_append, List.foldl_append, ← ih (by omega)]
    exact line_view h M _

def MD5p.chain (md5 : MD5p) : Chain := ⟨md5._chain0, md5._chain1, md5._chain2, md5._chain3⟩

@[simp] theorem addLength_chain (md5 : MD5p) (length : UInt32) :
    (md5.addLength length).chain = md5.chain := by
  rw [MD5p.addLength]
  split_ifs <;> rfl

theorem Update_chain (md5 : MD5p) (M : Nat → UInt32) :
    (md5.Update M).chain = compress md5.chain M := by
  have h := lines_view (Nat.le_refl 64) M ⟨md5._chain0, md5._chain1, md5._chain2, md5._chain3⟩
  rw [← lines_eq] at h
  have he : _ = ops M md5.chain := h
  rw [MD5p.Update, addLength_chain, compress, ← he]
  generalize (lines M).foldl _ _ = v
  rfl

theorem addLength_length {md5 : MD5p} {length : UInt32}
    (h : md5._length0.toNat + length.toNat < 2 ^ 32) :
    (md5.addLength length)._length0 = md5._length0 + length ∧
      (md5.addLength length)._length1 = md5._length1 := by
  have hle : md5._length0 ≤ 0xffffffff := by
    rw [UInt32.le_iff_toNat_le]
    exact Nat.le_of_lt_succ md5._length0.toNat_lt
  have hcarry : ¬ 0xffffffff - md5._length0 < length := by
    rw [UInt32.lt_iff_toNat_lt, UInt32.toNat_sub_of_le _ _ hle]
    have hmax : (0xffffffff : UInt32).toNat = 2 ^ 32 - 1 := rfl
    omega
  rw [MD5p.addLength, if_neg hcarry]
  exact ⟨rfl, rfl⟩

/-- What the object holds once the given number of blocks of the message are in it. -/
structure MD5p.After (md5 : MD5p) (b : List UInt8) (n : Nat) : Prop where
  chain : md5.chain = Lib.Md5.chain b n
  low : md5._length0.toNat = 64 * n
  high : md5._length1 = 0

theorem MD5p.After.new (b : List UInt8) : MD5p.new.After b 0 :=
  ⟨(chain_zero b).symm, rfl, rfl⟩

theorem Update_length (md5 : MD5p) (M : Nat → UInt32) (h : md5._length0.toNat + 64 < 2 ^ 32) :
    (md5.Update M)._length0 = md5._length0 + 64 ∧ (md5.Update M)._length1 = md5._length1 := by
  rw [MD5p.Update]
  exact addLength_length h

theorem MD5p.After.update {b : List UInt8} {n : Nat} {md5 : MD5p} (h : md5.After b n)
    (hn : 64 * (n + 1) < 2 ^ 32) :
    (md5.Update fun k => word b (64 * n + 4 * k)).After b (n + 1) := by
  have hlow := h.low
  obtain ⟨h0, h1⟩ := Update_length md5 (fun k => word b (64 * n + 4 * k)) (by omega)
  constructor
  case chain => rw [Update_chain, h.chain, chain_succ]
  case low =>
    have h64 : (64 : UInt32).toNat = 64 := rfl
    rw [h0, UInt32.toNat_add, hlow, h64]
    omega
  case high => rw [h1, h.high]

theorem blocks_ok {b : List UInt8} (hb : b.length < 2 ^ 32 - 64) (d : Nat) {n : Nat} {md5 : MD5p}
    {p : UInt32} (h : md5.After b n) (hp : p.toNat = 64 * n) (hd : b.length / 64 = n + d) :
    ∃ r q, blocks b (UInt32.ofNat b.length) (d + 1) md5 p = .ok (r, q) ∧
      q.toNat = 64 * (b.length / 64) ∧ r.After b (b.length / 64) := by
  have hlen : (UInt32.ofNat b.length).toNat = b.length :=
    UInt32.toNat_ofNat_of_lt' (Nat.lt_trans hb (by decide))
  have hadd : (p + 64).toNat = 64 * (n + 1) := by
    have h64 : (64 : UInt32).toNat = 64 := rfl
    rw [UInt32.toNat_add, hp, h64]
    omega
  induction d generalizing n md5 p with
  | zero =>
    have hlast : ¬ p + 64 ≤ UInt32.ofNat b.length := by
      rw [UInt32.le_iff_toNat_le, hlen, hadd]
      omega
    rw [blocks, if_neg hlast, hd]
    exact ⟨md5, p, rfl, hp, h⟩
  | succ d ih =>
    have hmore : p + 64 ≤ UInt32.ofNat b.length := by
      rw [UInt32.le_iff_toNat_le, hlen, hadd]
      omega
    rw [blocks, if_pos hmore, load, hp, if_pos (by omega)]
    apply ih (h.update (by omega)) hadd (by omega)
    have h64 : (64 : UInt32).toNat = 64 := rfl
    rw [UInt32.toNat_add, hadd, h64]
    omega

theorem ok_bind (x : α) (f : α → Except Fault β) : (Except.ok x >>= f) = f x := rfl

theorem copyTail_ok {tail : List UInt8} (ht : tail.length ≤ 128) {l : Nat} {padding : List UInt8}
    (hl : padding.length + l = tail.length) (hp : padding <+: tail) :
    copyTail tail l padding = .ok tail := by
  induction l generalizing padding with
  | zero => rw [copyTail, hp.eq_of_length hl]
  | succ l ih =>
    obtain ⟨rest, rfl⟩ := hp
    cases rest with
    | nil =>
      rw [List.append_nil] at hl
      omega
    | cons c rest =>
      have hlt : padding.length < 128 := by omega
      rw [copyTail, List.getElem?_append_right (Nat.le_refl _), Nat.sub_self,
        List.getElem?_cons_zero]
      dsimp only
      rw [put, if_pos hlt]
      apply ih
      · rw [List.length_append, List.length_singleton]
        omega
      · exact ⟨rest, by rw [List.append_assoc, List.singleton_append]⟩

theorem fill_ok {n : Nat} {padding : List UInt8} (h : padding.length + n ≤ 128) :
    fill (n + 1) padding = .ok (padding ++ List.replicate n 0) := by
  induction n generalizing padding with
  | zero => rw [fill, if_neg (by omega), List.replicate_zero, List.append_nil]
  | succ n ih =>
    rw [fill, if_pos (by omega), put, if_pos (by omega)]
    have hlen : (padding ++ [0]).length + n ≤ 128 := by
      rw [List.length_append, List.length_singleton]
      omega
    rw [List.replicate_succ, List.append_cons padding 0 (List.replicate n 0)]
    exact ih hlen

theorem padTail_ok {l : Nat} (hl : l < 64) {padding : List UInt8} (hp : padding.length = l) :
    padTail l padding = .ok (padding ++ 0x80 :: List.replicate (zeros l) 0) := by
  have hn : (if 56 ≤ l then 120 else 56) - l = zeros l + 1 := by
    rw [zeros]
    split_ifs <;> omega
  have hz : zeros l < 64 := Nat.mod_lt _ (by decide)
  have hlen : (padding ++ [0x80]).length + zeros l ≤ 128 := by
    rw [List.length_append, List.length_singleton]
    omega
  rw [padTail, hn, if_pos (Nat.succ_pos _), put, if_pos (by omega),
    List.append_cons padding 0x80 (List.replicate _ 0)]
  exact fill_ok hlen

theorem length_bytes (w : UInt32) :
    littleEndian 4 (w <<< 3).toNat ++ littleEndian 4 ((0 : UInt32) <<< 3 ||| w >>> 29).toNat =
      littleEndian 8 (8 * w.toNat) := by
  have hlow : (w <<< 3).toNat = 8 * w.toNat % 256 ^ 4 := by
    rw [UInt32.toNat_shiftLeft, Nat.shiftLeft_eq, Nat.mul_comm]
    rfl
  have hhigh : ((0 : UInt32) <<< 3 ||| w >>> 29).toNat = 8 * w.toNat / 256 ^ 4 := by
    have hz : (0 : UInt32) <<< 3 = 0 := rfl
    rw [hz, UInt32.zero_or, UInt32.toNat_shiftRight, Nat.shiftRight_eq_div_pow]
    have hs : (29 : UInt32).toNat % 32 = 29 := rfl
    rw [hs]
    omega
  rw [hlow, hhigh, littleEndian_mod, ← littleEndian_add]

theorem pad_drop (b : List UInt8) {n : Nat} (hn : n ≤ b.length) :
    (pad b).drop n =
      b.drop n ++ 0x80 :: List.replicate (zeros b.length) 0 ++
        littleEndian 8 (8 * b.length) := by
  rw [pad, List.append_assoc, List.drop_append_of_le_length hn, List.append_assoc]

theorem load_ok {buffer : List UInt8} {p : Nat} (h : p + 64 ≤ buffer.length) :
    load buffer p = .ok fun k => word buffer (p + 4 * k) := if_pos h

theorem putWord_ok {padding : List UInt8} (h : padding.length + 4 ≤ 128) (w : UInt32) :
    putWord padding w = .ok (padding ++ littleEndian 4 w.toNat) := if_pos h

theorem Update_pad {b : List UInt8} {n : Nat} {md5 : MD5p} (h : md5.chain = chain (pad b) n)
    (j : Nat) {p : Nat} (hp : 64 * n = j + p) :
    (md5.Update fun k => word ((pad b).drop j) (p + 4 * k)).chain = chain (pad b) (n + 1) := by
  rw [Update_chain, chain_succ, h]
  apply compress_congr
  intro k _
  rw [word_drop, hp, Nat.add_assoc]

theorem zeros_eq (n : Nat) : zeros n = if 56 ≤ n % 64 then 119 - n % 64 else 55 - n % 64 := by
  rw [zeros]
  split_ifs <;> omega

theorem pad_drop_length {b : List UInt8} :
    ((pad b).drop (64 * (b.length / 64))).length = if 56 ≤ b.length % 64 then 128 else 64 := by
  rw [List.length_drop, pad_length, zeros_eq]
  split_ifs <;> omega

/-- The padding that `Final` builds is the end of the padded message. -/
theorem padding_ok {b : List UInt8} {w : UInt32} (hw : w.toNat = b.length)
    (f : List UInt8 → Except Fault MD5p) :
    (do
      let padding ← copyTail (b.drop (64 * (b.length / 64))) (b.length % 64) []
      let padding ← padTail (b.length % 64) padding
      let padding ← putWord padding (w <<< 3)
      let padding ← putWord padding ((0 : UInt32) <<< 3 ||| w >>> 29)
      f padding) = f ((pad b).drop (64 * (b.length / 64))) := by
  have hpad := pad_drop b (show 64 * (b.length / 64) ≤ b.length by omega)
  have hlen := pad_drop_length (b := b)
  have hle : ((pad b).drop (64 * (b.length / 64))).length ≤ 128 := by
    rw [hlen]
    split_ifs <;> omega
  have htail : (b.drop (64 * (b.length / 64))).length = b.length % 64 := by
    rw [List.length_drop]
    omega
  have hz : zeros (b.length % 64) = zeros b.length := by
    rw [zeros, Nat.mod_mod, ← zeros]
  have hbytes := length_bytes w
  rw [hw] at hbytes
  rw [hpad, List.length_append, littleEndian_length] at hle
  rw [copyTail_ok (by omega) (by rw [List.length_nil]; omega) List.nil_prefix, ok_bind,
    padTail_ok (Nat.mod_lt _ (by decide)) htail, ok_bind, hz, putWord_ok (by omega), ok_bind,
    putWord_ok (by rw [List.length_append, littleEndian_length]; omega), ok_bind,
    List.append_assoc, hbytes, ← hpad]

theorem Final_ok {b : List UInt8} (hb : b.length < 2 ^ 32) {md5 : MD5p}
    (h : md5.After b (b.length / 64)) {length : UInt32}
    (hlength : length.toNat = b.length % 64) :
    ∃ r, md5.Final (b.drop (64 * (b.length / 64))) length = .ok r ∧
      r.chain = chain (pad b) ((pad b).length / 64) := by
  have hlow := h.low
  have htotal : (md5._length0 + length).toNat = b.length := by
    rw [UInt32.toNat_add, hlow, hlength]
    omega
  have hl : ((md5._length0 + length) &&& 0x3f).toNat = b.length % 64 := by
    rw [UInt32.toNat_and, htotal]
    exact Nat.and_two_pow_sub_one_eq_mod b.length 6
  have hlen := pad_drop_length (b := b)
  have hblocks := pad_length b
  rw [zeros_eq] at hblocks
  have hfirst : (md5.addLength length).chain = chain (pad b) (b.length / 64) := by
    rw [addLength_chain, h.chain, pad, List.append_assoc, chain_append (by omega)]
  have hone := Update_pad hfirst (64 * (b.length / 64)) (Nat.add_zero _).symm
  obtain ⟨h0, h1⟩ := @addLength_length md5 length (by omega)
  rw [MD5p.Final]
  dsimp only
  rw [h0, h1, hl, h.high, padding_ok htotal]
  by_cases hlarge : 56 ≤ b.length % 64
  · have htwo := Update_pad hone (64 * (b.length / 64)) (p := 64) (by omega)
    rw [if_pos hlarge] at hlen hblocks
    have hcount : (pad b).length / 64 = b.length / 64 + 1 + 1 := by omega
    rw [load_ok (by omega), load_ok (by omega), hcount, ok_bind, if_pos hlarge]
    exact ⟨_, rfl, htwo⟩
  · rw [if_neg hlarge] at hlen hblocks
    have hcount : (pad b).length / 64 = b.length / 64 + 1 := by omega
    rw [load_ok (by omega), hcount, ok_bind, if_neg hlarge]
    exact ⟨_, rfl, hone⟩

/-- No position ends the loop when the last one that fits is too small for the length. -/
theorem blocks_ne {message : List UInt8} {length : UInt32} (h : 2 ^ 32 - 64 ≤ length.toNat)
    (fuel : Nat) (md5 : MD5p) {p : UInt32} (hp : p.toNat % 64 = 0) (r : MD5p × UInt32) :
    blocks message length fuel md5 p ≠ .ok r := by
  have hlt := p.toNat_lt
  have hadd : (p + 64).toNat = (p.toNat + 64) % 2 ^ 32 := UInt32.toNat_add p 64
  induction fuel generalizing md5 p with
  | zero => simp [blocks]
  | succ fuel ih =>
    have hmore : p + 64 ≤ length := by
      rw [UInt32.le_iff_toNat_le, hadd]
      omega
    rw [blocks, if_pos hmore, load]
    split_ifs
    · exact ih _ (by omega) (UInt32.toNat_lt _) (UInt32.toNat_add _ 64)
    · nofun

theorem GetSum_ok {b : List UInt8} (hb : b.length < 2 ^ 32 - 64) :
    GetSum (b.length / 64 + 1) b (UInt32.ofNat b.length) = .ok (digest b) := by
  have hlen : (UInt32.ofNat b.length).toNat = b.length :=
    UInt32.toNat_ofNat_of_lt' (Nat.lt_trans hb (by decide))
  obtain ⟨md5, p, hloop, hp, h⟩ :=
    blocks_ok hb (b.length / 64) (MD5p.After.new b) (p := 0) rfl (Nat.zero_add _).symm
  have hrest : (UInt32.ofNat b.length - p).toNat = b.length % 64 := by
    have hle : p ≤ UInt32.ofNat b.length := by
      rw [UInt32.le_iff_toNat_le, hlen, hp]
      omega
    rw [UInt32.toNat_sub_of_le _ _ hle, hlen, hp]
    omega
  obtain ⟨r, hfinal, hr⟩ := Final_ok (by omega) h hrest
  rw [← hp] at hfinal
  have hout : output (chain (pad b) ((pad b).length / 64)) = r.Output := by
    rw [← hr]
    rfl
  rw [GetSum, hloop, ok_bind]
  dsimp only
  rw [hfinal, ok_bind, digest, hout]
  rfl

theorem GetSum_ne {b : List UInt8} {length : UInt32}
    (h : 2 ^ 32 - 64 ≤ length.toNat) (fuel : Nat)
    (r : List UInt8) : GetSum fuel b length ≠ .ok r := by
  intro hr
  rw [GetSum] at hr
  cases hloop : blocks b length fuel .new 0 with
  | error => rw [hloop] at hr; cases hr
  | ok s => exact blocks_ne h fuel .new rfl s hloop

/-- A longer message is read past its end, and the position starts again from 0. -/
theorem digest_iff {b : List UInt8} (hb : b.length < 2 ^ 32) :
    (∃ fuel, GetSum fuel b (UInt32.ofNat b.length) = .ok (digest b)) ↔
      b.length < 2 ^ 32 - 64 := by
  constructor
  · rintro ⟨fuel, h⟩
    by_contra hlong
    have hlen : (UInt32.ofNat b.length).toNat = b.length := UInt32.toNat_ofNat_of_lt' hb
    exact GetSum_ne (by omega) fuel _ h
  · intro h
    exact ⟨_, GetSum_ok h⟩

/-- A message of more than one block. -/
theorem digest_iff_hundred :
    (List.replicate 100 (97 : UInt8)).length < 2 ^ 32 ∧
      ((∃ fuel, GetSum fuel (List.replicate 100 97)
          (UInt32.ofNat (List.replicate 100 (97 : UInt8)).length) =
            .ok (digest (List.replicate 100 97))) ↔
        (List.replicate 100 (97 : UInt8)).length < 2 ^ 32 - 64) :=
  ⟨by decide, digest_iff (by decide)⟩

theorem reads_past_end :
    (List.replicate (2 ^ 32 - 64) (0 : UInt8)).length < 2 ^ 32 ∧
      ¬ ∃ fuel, GetSum fuel (List.replicate (2 ^ 32 - 64) 0)
        (UInt32.ofNat (List.replicate (2 ^ 32 - 64) (0 : UInt8)).length) =
          .ok (digest (List.replicate (2 ^ 32 - 64) 0)) := by
  generalize hb : List.replicate (2 ^ 32 - 64) (0 : UInt8) = b
  have hlen : b.length = 2 ^ 32 - 64 := by
    rw [← hb, List.length_replicate]
  rw [hlen]
  constructor
  · decide
  · rintro ⟨fuel, h⟩
    have hlarge : 2 ^ 32 - 64 ≤ (UInt32.ofNat (2 ^ 32 - 64)).toNat := by decide
    exact GetSum_ne hlarge fuel _ h

end Misc.Md5
