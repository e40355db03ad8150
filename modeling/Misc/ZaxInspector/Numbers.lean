import Misc.Lib.Radix
import Mathlib.Data.Nat.Digits.Lemmas

namespace Misc.ZaxInspector
open Misc.Lib
set_option autoImplicit true

/-- The project is built for Unicode. -/
abbrev Tchar := UInt16

def digitChar (nDigit : Nat) : Tchar := .ofNat (nDigit + if 10 ≤ nDigit then 65 - 10 else 48)

/-- The loop that writes the digits of a number to `szTemp`, the lowest first, with a bound on
its turns. -/
def reverseDigits (nRadix : Nat) : Nat → Nat → List Tchar
  | 0, _ => []
  | turns + 1, dwNumber =>
    if 0 < dwNumber then
      digitChar (dwNumber % nRadix) :: reverseDigits nRadix turns (dwNumber / nRadix)
    else []

/-- The text that `rt_dwtos` stores at `szOutText`, with a NUL behind it; it stores nothing if
the text is empty, and it returns the length of the text. It is `none` if it writes behind the
end of `szTemp`. -/
def rtDwtos (dwNumber : UInt32) (nRadix nFillZero nOutLength : Int) : Option (List Tchar) :=
  if nRadix < 10 ∨ nRadix > 16 ∨ nFillZero ≥ nOutLength then some []
  else
    let digits := if dwNumber = 0 then [48]
      else reverseDigits nRadix.toNat dwNumber.toNat dwNumber.toNat
    let szTemp := digits ++ List.replicate (nFillZero.toNat - digits.length) 48
    if 16 < szTemp.length then none
    else if nOutLength > szTemp.length then some szTemp.reverse
    else some []

/-- The loop of `rt_stodw` from the character with the number `nLength` on; the text ends at a
NUL. -/
def scan (bIsHex : Bool) (dwRadix : UInt32) : List Tchar → UInt32 → Nat → Nat × UInt32
  | [], dwTemp, nLength => (nLength, dwTemp)
  | c :: text, dwTemp, nLength =>
    if c = 0 then (nLength, dwTemp)
    else
      let dwTemp := dwTemp * dwRadix
      if 48 ≤ c ∧ c ≤ 57 then scan bIsHex dwRadix text (dwTemp + (c - 48).toUInt32) (nLength + 1)
      else if bIsHex then
        if 65 ≤ c ∧ c ≤ 90 then
          scan bIsHex dwRadix text (dwTemp + (c - 65).toUInt32) (nLength + 1)
        else if 97 ≤ c ∧ c ≤ 122 then
          scan bIsHex dwRadix text (dwTemp + (c - 97).toUInt32) (nLength + 1)
        else (nLength, dwTemp)
      else (nLength, dwTemp)

/-- `rt_stodw` returns the number of characters it has read, and stores a number unless this is
0. -/
def rtStodw (szNumber : List Tchar) : Nat × Option UInt32 :=
  let bIsHex := szNumber.getD 0 0 = 48 ∧ szNumber.getD 1 0 = 120
  let r := if bIsHex then scan true 16 (szNumber.drop 2) 0 2 else scan false 10 szNumber 0 0
  (r.1, if 0 < r.1 then some r.2 else none)

/-- What `rt_stodw` makes of a digit. -/
def misread (d : Nat) : Nat := if d < 10 then d else d - 10

theorem digitChar_decimal : ∀ d < 10, digitChar d ≠ 0 ∧ digitChar d ≠ 120 ∧
    (48 ≤ digitChar d ∧ digitChar d ≤ 57) ∧
      (digitChar d - 48).toUInt32 = .ofNat (misread d) := by
  decide

theorem digitChar_letter : ∀ d < 16, 10 ≤ d → digitChar d ≠ 0 ∧
    ¬ (48 ≤ digitChar d ∧ digitChar d ≤ 57) ∧ (65 ≤ digitChar d ∧ digitChar d ≤ 90) ∧
    (digitChar d - 65).toUInt32 = .ofNat (misread d) := by
  decide

theorem misread_of_lt (h : d < 10) : misread d = d := if_pos h

theorem misread_lt (h : d < 16) : misread d < 16 := by
  rw [misread]
  split_ifs <;> omega

theorem misread_eq_iff : misread d = d ↔ d < 10 := by
  rw [misread]
  split_ifs <;> omega

section
variable {ds : List Nat} {bIsHex : Bool} {r t n k : Nat}

theorem scan_digits (bIsHex : Bool) (r t k : Nat)
    (h : ∀ d ∈ ds, d < 10 ∨ bIsHex = true ∧ d < 16) :
    scan bIsHex (.ofNat r) (ds.map digitChar) (.ofNat t) k =
      (k + ds.length, .ofNat (ds.foldl (fun t d => t * r + misread d) t)) := by
  induction ds generalizing t k with
  | nil => rfl
  | cons d ds ih =>
    have hrest := ih (t := t * r + misread d) (k := k + 1) fun d hd =>
      h d (List.mem_cons_of_mem _ hd)
    rw [UInt32.ofNat_add, UInt32.ofNat_mul] at hrest
    rw [List.map_cons, scan]
    dsimp only
    by_cases hd : d < 10
    · obtain ⟨hnul, -, hrange, hval⟩ := digitChar_decimal d hd
      rw [if_neg hnul, if_pos hrange, hval, hrest, List.foldl_cons, List.length_cons]
      congr 1
      omega
    · obtain ⟨hhex, hlt⟩ := (h d List.mem_cons_self).resolve_left hd
      obtain ⟨hnul, hrange, hletter, hval⟩ := digitChar_letter d hlt (Nat.le_of_not_lt hd)
      rw [if_neg hnul, if_neg hrange, if_pos hhex, if_pos hletter, hval, hrest, List.foldl_cons,
        List.length_cons]
      congr 1
      omega

theorem reverseDigits_eq (hr : 1 < r) (hn : n ≤ k) :
    reverseDigits r k n = (Nat.digits r n).map digitChar := by
  induction k generalizing n with
  | zero =>
    obtain rfl : n = 0 := Nat.le_zero.1 hn
    rw [Nat.digits_zero]
    rfl
  | succ k ih =>
    rw [reverseDigits]
    split_ifs with hpos
    · have hdiv : n / r < n := Nat.div_lt_self hpos hr
      rw [ih (by omega), Nat.digits_def' hr hpos, List.map_cons]
    · obtain rfl : n = 0 := Nat.eq_zero_of_not_pos hpos
      rw [Nat.digits_zero]
      rfl

end

/-- The digits of the text of a number, the lowest first. -/
def textDigits (n : UInt32) (r : Nat) (nFillZero : Int) : List Nat :=
  Nat.digits r n.toNat ++
    List.replicate (max 1 nFillZero.toNat - (Nat.digits r n.toNat).length) 0

/-- The text of a number fits in `szTemp` and in the buffer. -/
structure Fits (n : UInt32) (r : Nat) (nFillZero nOutLength : Int) : Prop where
  temp : nFillZero ≤ 16
  fill : nFillZero < nOutLength
  one : 1 < nOutLength
  digits : (Nat.digits r n.toNat).length < nOutLength

section
variable {n : UInt32} {r d : Nat} {nFillZero nOutLength : Int}

theorem textDigits_pos (n : UInt32) (r : Nat) (nFillZero : Int) :
    0 < (textDigits n r nFillZero).length := by
  rw [textDigits, List.length_append, List.length_replicate]
  omega

theorem textDigits_lt (hr : 1 < r) (hd : d ∈ textDigits n r nFillZero) : d < r := by
  rcases List.mem_append.1 hd with hd | hd
  · exact Nat.digits_lt_base hr hd
  · rw [List.eq_of_mem_replicate hd]
    omega

theorem length_digits_le (hr : 10 ≤ r) : (Nat.digits r n.toNat).length ≤ 10 := by
  rw [Nat.digits_length_le_iff (by omega)]
  have hpow : 10 ^ 10 ≤ r ^ 10 := Nat.pow_le_pow_left hr 10
  have hn := n.toNat_lt
  omega

theorem szTemp_eq (hr : 1 < r) :
    (if n = 0 then [48] else reverseDigits r n.toNat n.toNat) ++
      List.replicate (nFillZero.toNat -
      (if n = 0 then [48] else reverseDigits r n.toNat n.toNat).length) 48 =
    (textDigits n r nFillZero).map digitChar := by
  rw [textDigits, List.map_append, List.map_replicate, show digitChar 0 = 48 from rfl]
  split_ifs with hzero
  · rw [hzero, UInt32.toNat_zero, Nat.digits_zero, List.map_nil,
      List.nil_append, List.length_nil, List.singleton_append, ← List.replicate_succ]
    congr 1
    simp only [List.length_singleton]
    omega
  · have hpos : 0 < n.toNat := Nat.pos_of_ne_zero fun h => hzero (UInt32.toNat_inj.1 h)
    have hlen : 0 < (Nat.digits r n.toNat).length :=
      List.length_pos_iff.2 (Nat.digits_ne_nil_iff_ne_zero.2 (Nat.ne_of_gt hpos))
    rw [reverseDigits_eq hr (Nat.le_refl _), List.length_map]
    congr 2
    omega

theorem rtDwtos_eq (hlow : 10 ≤ r) (hhigh : r ≤ 16) (h : Fits n r nFillZero nOutLength) :
    rtDwtos n r nFillZero nOutLength =
      some ((textDigits n r nFillZero).reverse.map digitChar) := by
  have hten := length_digits_le hlow (n := n)
  have hfill := h.fill
  have htemp := h.temp
  have hone := h.one
  have hdigits := h.digits
  have hlen : (textDigits n r nFillZero).length =
      max (max 1 nFillZero.toNat) (Nat.digits r n.toNat).length := by
    rw [textDigits, List.length_append, List.length_replicate]
    omega
  rw [rtDwtos, if_neg (by omega)]
  dsimp only
  rw [Int.toNat_natCast, szTemp_eq (by omega), List.length_map, hlen, if_neg (by omega),
    if_pos (by omega), List.map_reverse]

theorem ofDigits_textDigits (r : Nat) : Nat.ofDigits r ((textDigits n r nFillZero).map misread) =
    Nat.ofDigits r ((Nat.digits r n.toNat).map misread) := by
  rw [textDigits, List.map_append, List.map_replicate, show misread 0 = 0 from rfl,
    Nat.ofDigits_append_replicate_zero]

/-- The decimal text of a number does not start as a hexadecimal one. -/
theorem not_hex {ds : List Nat} (h : ∀ d ∈ ds, d < 10) : (ds.map digitChar).getD 1 0 ≠ 120 := by
  rw [List.getD_eq_getElem?_getD, List.getElem?_map]
  cases hd : ds[1]? with
  | none => decide
  | some d => exact (digitChar_decimal d (h d (List.mem_of_getElem? hd))).2.1

theorem rtStodw_decimal (n : UInt32) (nFillZero : Int) :
    rtStodw ((textDigits n 10 nFillZero).reverse.map digitChar) =
      (((textDigits n 10 nFillZero).reverse.map digitChar).length, some n) := by
  have hlt : ∀ d ∈ (textDigits n 10 nFillZero).reverse, d < 10 := fun d hd =>
    textDigits_lt (by decide) (List.mem_reverse.1 hd)
  have hscan := scan_digits false 10 0 0 fun d hd => Or.inl (hlt d hd)
  rw [foldl_reverse_ofDigits, ofDigits_textDigits, Nat.zero_add] at hscan
  have hsame : (Nat.digits 10 n.toNat).map misread = Nat.digits 10 n.toNat := by
    conv_rhs => rw [← List.map_id (Nat.digits 10 n.toNat)]
    exact List.map_congr_left fun d hd => misread_of_lt (Nat.digits_lt_base (by decide) hd)
  rw [hsame, Nat.ofDigits_digits, UInt32.ofNat_toNat] at hscan
  rw [rtStodw, if_neg fun hhex => not_hex hlt hhex.2, show (10 : UInt32) = .ofNat 10 from rfl,
    show (0 : UInt32) = .ofNat 0 from rfl, hscan, List.length_map, List.length_reverse,
    if_pos (textDigits_pos n 10 nFillZero)]

theorem rtStodw_hex (n : UInt32) (nFillZero : Int) :
    rtStodw (48 :: 120 :: (textDigits n 16 nFillZero).reverse.map digitChar) =
      (2 + (textDigits n 16 nFillZero).length,
        some (.ofNat (Nat.ofDigits 16 ((Nat.digits 16 n.toNat).map misread)))) := by
  have hlt : ∀ d ∈ (textDigits n 16 nFillZero).reverse, d < 10 ∨ true = true ∧ d < 16 :=
      fun d hd =>
    Or.inr ⟨rfl, textDigits_lt (by decide) (List.mem_reverse.1 hd)⟩
  have hscan := scan_digits true 16 0 2 hlt
  rw [foldl_reverse_ofDigits, ofDigits_textDigits, List.length_reverse] at hscan
  rw [rtStodw, if_pos ⟨rfl, rfl⟩, List.drop_succ_cons, List.drop_succ_cons, List.drop_zero,
    show (16 : UInt32) = .ofNat 16 from rfl, show (0 : UInt32) = .ofNat 0 from
      rfl, hscan, if_pos (by omega)]

theorem hex_eq_iff (n : UInt32) :
    UInt32.ofNat (Nat.ofDigits 16 ((Nat.digits 16 n.toNat).map misread)) = n ↔
      ∀ d ∈ Nat.digits 16 n.toNat, d < 10 := by
  have hlt : ∀ d ∈ Nat.digits 16 n.toNat, d < 16 := fun d hd => Nat.digits_lt_base (by decide) hd
  have hmis : ∀ d ∈ Nat.digits 16 n.toNat, misread d < 16 := fun d hd => misread_lt (hlt d hd)
  have hlen : (Nat.digits 16 n.toNat).length ≤ 8 := by
    rw [Nat.digits_length_le_iff (by decide)]
    exact n.toNat_lt
  have hval : Nat.ofDigits 16 ((Nat.digits 16 n.toNat).map misread) < 2 ^ 32 :=
    ofDigits_map_lt (by decide) hmis hlen
  have heq := ofDigits_map_eq_iff (by decide) hlt hmis
  rw [Nat.ofDigits_digits] at heq
  rw [← UInt32.toNat_inj, UInt32.toNat_ofNat_of_lt' hval, heq]
  exact forall₂_congr fun d _ => misread_eq_iff

end

/-- Both texts of a number are read back. -/
structure ReadBack (n : UInt32) : Prop where
  decimal : ∀ nFillZero nOutLength, Fits n 10 nFillZero nOutLength →
    ∃ text, rtDwtos n 10 nFillZero nOutLength = some text ∧ rtStodw text = (text.length, some n)
  hex : ∀ nFillZero nOutLength, Fits n 16 nFillZero nOutLength →
    ∃ text, rtDwtos n 16 nFillZero nOutLength = some text ∧
      rtStodw (48 :: 120 :: text) = (2 + text.length, some n)

/-- A number is read back from both of its texts if and only if its hexadecimal one has no
letter. -/
theorem readBack_iff (n : UInt32) : ReadBack n ↔ ∀ d ∈ Nat.digits 16 n.toNat, d < 10 := by
  rw [← hex_eq_iff]
  constructor
  · intro h
    have hlen := length_digits_le (n := n) (r := 16) (by decide)
    have hfits : Fits n 16 0 16 := ⟨by decide, by decide, by decide, by omega⟩
    obtain ⟨text, htext, hread⟩ := h.hex 0 16 hfits
    cases htext.symm.trans (rtDwtos_eq (by decide) (by decide) hfits)
    rw [rtStodw_hex] at hread
    exact Option.some.inj (Prod.mk.inj hread).2
  · intro heq
    refine ⟨fun nFillZero nOutLength h => ?_, fun nFillZero nOutLength h => ?_⟩
    · exact ⟨_, rtDwtos_eq (by decide) (by decide) h, rtStodw_decimal n nFillZero⟩
    · refine ⟨_, rtDwtos_eq (by decide) (by decide) h, ?_⟩
      rw [rtStodw_hex, heq, List.length_map, List.length_reverse]

/-- Ten is printed as A and read as 0. -/
theorem ten_misread : ¬ ∀ n, ReadBack n := by
  intro h
  obtain ⟨text, htext, hread⟩ := (h 10).hex 0 16 ⟨by decide, by decide, by decide, by decide⟩
  cases htext
  exact absurd (Prod.mk.inj hread).2 (by decide)

end Misc.ZaxInspector
