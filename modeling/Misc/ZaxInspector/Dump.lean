import Misc.ZaxInspector.Numbers

namespace Misc.ZaxInspector
open Misc.Lib
set_option autoImplicit true

/-- Stores a text and a NUL behind it, unless it is empty. -/
def storeText (szText : Nat → Tchar) (off : Nat) (s : List Tchar) : Nat → Tchar :=
  if s = [] then szText
  else fun j =>
    if j < off then szText j
    else if j < off + s.length then s.getD (j - off) 0
    else if j = off + s.length then 0
    else szText j

/-- The loop of `rt_btos`, with the bytes that are left. -/
def btosLoop (dwLength : UInt32) :
    List UInt8 → Nat → UInt32 → (Nat → Tchar) → Option (UInt32 × (Nat → Tchar))
  | [], _, nLength, szText => some (nLength, szText)
  | b :: pBytes, i, nLength, szText =>
    if nLength ≥ dwLength then some (dwLength - 1, szText)
    else
      let szText := if 0 < i then Function.update szText nLength.toNat 32 else szText
      let nLength := if 0 < i then nLength + 1 else nLength
      (rtDwtos b.toUInt32 16 2 (dwLength - nLength).toInt32.toInt).bind fun s =>
        btosLoop dwLength pBytes (i + 1) (nLength + 2) (storeText szText nLength.toNat s)

/-- `rt_btos` on a memory in which `szText` starts at 0; it returns the length and the memory. -/
def rtBtos (pBytes : List UInt8) (dwLength : UInt32) (szText : Nat → Tchar) :
    Option (UInt32 × (Nat → Tchar)) :=
  (btosLoop dwLength pBytes 0 0 szText).map fun (nLength, szText) =>
    (nLength, Function.update szText nLength.toNat 0)

def hexByte (b : UInt8) : List Tchar := [digitChar (b.toNat / 16), digitChar (b.toNat % 16)]

/-- The bytes in hexadecimal with a space between them. -/
def dump (pBytes : List UInt8) : List Tchar := [32].intercalate (pBytes.map hexByte)

section
variable {dwLength nLength : UInt32} {pBytes front back : List UInt8}
  {szText szText' : Nat → Tchar}
  {s : List Tchar} {b : UInt8} {i j k m off : Nat}

theorem signed_eq (x : UInt32) :
    x.toInt32.toInt = if 2 * x.toNat < 2 ^ 32 then (x.toNat : Int) else x.toNat - 2 ^ 32 :=
  BitVec.toInt_eq_toNat_cond x.toBitVec

theorem byteDigits : ∀ n < 256, (if n = 0 then [48] else reverseDigits 16 n n) ++
    List.replicate (2 - (if n = 0 then [48] else reverseDigits 16 n n).length) 48 =
      [digitChar (n % 16), digitChar (n / 16)] := by
  decide +kernel

theorem rtDwtos_byte (b : UInt8) (nOutLength : Int) :
    rtDwtos b.toUInt32 16 2 nOutLength = some (if 2 < nOutLength then hexByte b else []) := by
  by_cases hout : 2 < nOutLength
  · have hdigits := byteDigits b.toNat b.toNat_lt
    have hzero : b.toUInt32 = 0 ↔ b.toNat = 0 := by
      rw [← UInt32.toNat_inj, UInt8.toNat_toUInt32]
      rfl
    rw [rtDwtos, if_neg (by omega), if_pos hout]
    simp only [hzero, UInt8.toNat_toUInt32, Int.reduceToNat, hdigits,
      List.length_cons, List.length_nil]
    rw [if_neg (by decide), if_pos (by omega)]
    rfl
  · rw [rtDwtos, if_pos (by omega), if_neg hout]

/-- The length at the start of a turn. -/
def top (i : Nat) : UInt32 := .ofNat (3 * i - 1)

theorem toNat_top (i : Nat) : (top i).toNat = (3 * i - 1) % 2 ^ 32 := UInt32.toNat_ofNat'

theorem toNat_top_small {i : Nat} (h : 3 * i < 2 ^ 32) : (top i).toNat = 3 * i - 1 := by
  rw [toNat_top, Nat.mod_eq_of_lt (by omega)]

/-- The memory after the turn for a byte. -/
def dumpByte (dwLength : UInt32) (i : Nat) (b : UInt8) (szText : Nat → Tchar) : Nat → Tchar :=
  storeText (if 0 < i then Function.update szText (top i).toNat 32 else szText)
    (UInt32.ofNat (3 * i)).toNat
    (if 2 < (dwLength - .ofNat (3 * i)).toInt32.toInt then hexByte b else [])

theorem btosLoop_break (h : dwLength ≤ top i) :
    btosLoop dwLength (b :: pBytes) i (top i) szText = some (dwLength - 1, szText) := by
  rw [btosLoop, if_pos h]

theorem btosLoop_turn (h : top i < dwLength) : btosLoop dwLength (b :: pBytes) i (top i) szText =
    btosLoop dwLength pBytes (i + 1) (top (i + 1)) (dumpByte dwLength i b szText) := by
  have hspace : (if 0 < i then top i + 1 else top i) = .ofNat (3 * i) := by
    split_ifs with hi
    · rw [top, show (1 : UInt32) = .ofNat 1 from rfl, ← UInt32.ofNat_add]
      congr 1
      omega
    · obtain rfl : i = 0 := by omega
      rfl
  have hnext : UInt32.ofNat (3 * i) + 2 = top (i + 1) := by
    rw [top, show (2 : UInt32) = .ofNat 2 from rfl, ← UInt32.ofNat_add]
    rfl
  rw [btosLoop, if_neg (UInt32.not_le.2 h)]
  dsimp only
  rw [hspace, rtDwtos_byte, Option.bind_some, hnext]
  rfl

theorem storeText_before (hj : j < off) : storeText szText off s j = szText j := by
  rw [storeText]
  split_ifs
  · rfl
  · exact if_pos hj

theorem storeText_at (hj : j < s.length) : storeText szText off s (off + j) = s.getD j 0 := by
  rw [storeText, if_neg (List.length_pos_iff.1 (Nat.zero_lt_of_lt hj)), if_neg (by omega),
    if_pos (by omega), Nat.add_sub_cancel_left]

theorem storeText_behind (hj : off + s.length < j) : storeText szText off s j = szText j := by
  rw [storeText]
  split_ifs
  · rfl
  · dsimp only
    rw [if_neg (by omega), if_neg (by omega), if_neg (by omega)]

theorem length_hexByte (b : UInt8) : (hexByte b).length = 2 := rfl

theorem place_le (h : top i < dwLength) : (UInt32.ofNat (3 * i)).toNat ≤ dwLength.toNat := by
  rw [UInt32.lt_iff_toNat_lt, toNat_top] at h
  rw [UInt32.toNat_ofNat']
  omega

theorem room_eq (h : top i < dwLength) : (dwLength - .ofNat (3 * i)).toNat =
    dwLength.toNat - (UInt32.ofNat (3 * i)).toNat :=
  UInt32.toNat_sub_of_le _ _ (UInt32.le_iff_toNat_le.2 (place_le h))

theorem dumpByte_outside (h : top i < dwLength) (hj : dwLength.toNat ≤ j) :
    dumpByte dwLength i b szText j = szText j := by
  have hspace :
      (if 0 < i then Function.update szText (top i).toNat 32 else szText) j = szText j := by
    split_ifs
    · refine Function.update_of_ne (Nat.ne_of_gt (Nat.lt_of_lt_of_le ?_ hj)) _ _
      exact UInt32.lt_iff_toNat_lt.1 h
    · rfl
  rw [dumpByte]
  generalize (if 0 < i then Function.update szText (top i).toNat 32 else szText) = t at hspace ⊢
  split_ifs with hroom
  · rw [signed_eq, room_eq h] at hroom
    rw [storeText_behind, hspace]
    rw [length_hexByte]
    split_ifs at hroom <;> omega
  · exact hspace

/-- With a length from 2³¹ on, nothing but a space is stored at the start of the buffer. -/
theorem dumpByte_start (h : top i < dwLength) (hbig : 2 ^ 31 ≤ dwLength.toNat)
    (hstart : szText 0 = 1 ∨ szText 0 = 32) :
    dumpByte dwLength i b szText 0 = 1 ∨ dumpByte dwLength i b szText 0 = 32 := by
  have hspace : (if 0 < i then Function.update szText (top i).toNat 32 else szText) 0 = 1 ∨
      (if 0 < i then Function.update szText (top i).toNat 32 else szText) 0 = 32 := by
    split_ifs
    · rw [Function.update_apply]
      split_ifs
      · exact Or.inr rfl
      · exact hstart
    · exact hstart
  rw [dumpByte]
  generalize (if 0 < i then Function.update szText (top i).toNat 32 else szText) = t at hspace ⊢
  split_ifs with hroom
  · rw [signed_eq, room_eq h] at hroom
    rw [storeText_before]
    · exact hspace
    · have hlt := dwLength.toNat_lt
      split_ifs at hroom <;> omega
  · exact hspace

def spaced (i : Nat) (szText : Nat → Tchar) : Nat → Tchar :=
  if 0 < i then Function.update szText (3 * i - 1) 32 else szText

theorem dumpByte_small (hsmall : dwLength.toNat < 2 ^ 31) (hi : 3 * i ≤ dwLength.toNat)
    (h : top i < dwLength) : dumpByte dwLength i b szText = storeText (spaced i szText) (3 * i)
      (if 3 * (i + 1) ≤ dwLength.toNat then hexByte b else []) := by
  have hplace : (UInt32.ofNat (3 * i)).toNat = 3 * i := by
    rw [UInt32.toNat_ofNat', Nat.mod_eq_of_lt (by omega)]
  have htop := toNat_top_small (show 3 * i < 2 ^ 32 by omega)
  have hroom : 2 < (dwLength - .ofNat (3 * i)).toInt32.toInt ↔ 3 * (i + 1) ≤ dwLength.toNat := by
    rw [signed_eq, room_eq h, hplace, if_pos (by omega)]
    omega
  rw [dumpByte, hplace, htop, spaced]
  simp only [hroom]

theorem spaced_above {i j : Nat} (h : 3 * i ≤ j) : spaced i szText j = szText j := by
  rw [spaced]
  split_ifs with hi
  · rw [Function.update_of_ne]
    omega
  · rfl

def Starts (szText : Nat → Tchar) (s : List Tchar) : Prop := ∀ j c, s[j]? = some c → szText j = c

theorem starts_append {s' : List Tchar} :
    Starts szText (s ++ s') ↔ Starts szText s ∧ Starts (fun j => szText (s.length + j)) s' := by
  constructor
  · intro h
    refine ⟨fun j c hj => h j c ?_, fun j c hj => h (s.length + j) c ?_⟩
    · rw [List.getElem?_append_left (List.getElem?_eq_some_iff.1 hj).1, hj]
    · rw [List.getElem?_append_right (Nat.le_add_right _ _), Nat.add_sub_cancel_left, hj]
  · rintro ⟨hs, hs'⟩ j c hj
    rcases Nat.lt_or_ge j s.length with hlt | hge
    · rw [List.getElem?_append_left hlt] at hj
      exact hs j c hj
    · rw [List.getElem?_append_right hge] at hj
      have hval := hs' _ c hj
      dsimp only at hval
      rwa [Nat.add_sub_cancel' hge] at hval

theorem Starts.congr (h : Starts szText s) (heq : ∀ j < s.length, szText' j = szText j) :
    Starts szText' s := fun j c hj =>
  (heq j (List.getElem?_eq_some_iff.1 hj).1).trans (h j c hj)

theorem Starts.map_range (h : Starts szText s) : (List.range s.length).map szText = s := by
  apply List.ext_getElem?
  intro j
  rw [List.getElem?_map]
  rcases Nat.lt_or_ge j s.length with hj | hj
  · rw [List.getElem?_range hj, List.getElem?_eq_getElem hj, Option.map_some,
      h j _ (List.getElem?_eq_getElem hj)]
  · rw [List.getElem?_eq_none hj, List.getElem?_eq_none (by rwa [List.length_range])]
    rfl

theorem starts_storeText (szText : Nat → Tchar) (off : Nat) (s : List Tchar) :
    Starts (fun j => storeText szText off s (off + j)) s := fun j c hj => by
  have hlt := (List.getElem?_eq_some_iff.1 hj).1
  dsimp only
  rw [storeText_at hlt, List.getD_eq_getElem?_getD, hj]
  rfl

theorem dump_singleton (b : UInt8) : dump [b] = hexByte b := List.intercalate_singleton

theorem dump_append (hf : front ≠ []) (hb : back ≠ []) :
    dump (front ++ back) = dump front ++ 32 :: dump back := by
  have hcons : ∀ a, ∀ l : List UInt8, l ≠ [] → dump (a :: l) = hexByte a ++ 32 :: dump l := by
    intro a l hl
    rw [dump, List.map_cons, List.intercalate_cons_of_ne_nil (by simpa using hl)]
    rfl
  induction front with
  | nil => exact absurd rfl hf
  | cons a front ih =>
    rw [List.cons_append, hcons a _ (by simp [hb])]
    by_cases hnil : front = []
    · rw [hnil, List.nil_append, dump_singleton]
    · rw [ih hnil, hcons a front hnil, List.append_assoc, List.cons_append]

theorem length_dump (pBytes : List UInt8) : (dump pBytes).length = 3 * pBytes.length - 1 := by
  induction pBytes with
  | nil => rfl
  | cons b pBytes ih =>
    by_cases hnil : pBytes = []
    · rw [hnil, dump_singleton]
      rfl
    · have hpos := List.length_pos_iff.2 hnil
      rw [show b :: pBytes = [b] ++ pBytes from rfl, dump_append (List.cons_ne_nil _ _) hnil,
        List.length_append, List.length_cons, ih, dump_singleton,
          length_hexByte, List.length_append,
        List.length_singleton]
      omega

theorem Starts.spaced (h : Starts szText (dump front)) (hnil : front ≠ []) :
    Starts (spaced front.length szText) (dump front ++ [32]) := by
  have hpos := List.length_pos_iff.2 hnil
  have hlen := length_dump front
  rw [starts_append, ZaxInspector.spaced, if_pos hpos]
  refine ⟨h.congr fun j hj => Function.update_of_ne (by omega) _ _, fun j c hj => ?_⟩
  match j with
  | 0 =>
    cases hj
    dsimp only
    rw [Nat.add_zero, hlen, Function.update_self]
  | j + 1 => cases hj

theorem Starts.dumpByte (h : Starts szText (dump front)) :
    Starts (storeText (ZaxInspector.spaced front.length szText) (3 * front.length) (hexByte b))
      (dump (front ++ [b])) := by
  by_cases hnil : front = []
  · rw [hnil, List.nil_append, dump_singleton]
    have hstore := starts_storeText (ZaxInspector.spaced 0 szText) 0 (hexByte b)
    simp only [Nat.zero_add] at hstore
    exact hstore
  · have hlen : (dump front ++ [32]).length = 3 * front.length := by
      have hpos := List.length_pos_iff.2 hnil
      rw [List.length_append, length_dump, List.length_singleton]
      omega
    rw [dump_append hnil (List.cons_ne_nil _ _), dump_singleton,
      List.append_cons, starts_append, hlen]
    exact ⟨(h.spaced hnil).congr fun j hj => storeText_before (by omega),
      starts_storeText _ _ _⟩

theorem btosLoop_front (front back : List UInt8) (hsmall : dwLength.toNat < 2 ^ 31)
    {done : List UInt8} (hfit : 3 * (done ++ front).length ≤ dwLength.toNat)
    (h : Starts szText (dump done)) :
    ∃ szText', btosLoop dwLength (front ++ back) done.length (top done.length) szText =
        btosLoop dwLength back (done ++ front).length (top (done ++ front).length) szText' ∧
      Starts szText' (dump (done ++ front)) ∧
      ∀ j, 3 * (done ++ front).length ≤ j → szText' j = szText j := by
  induction front generalizing done szText with
  | nil =>
    rw [List.append_nil]
    exact ⟨szText, rfl, h, fun j _ => rfl⟩
  | cons b front ih =>
    have hlen : (done ++ b :: front).length = done.length + 1 + front.length := by
      rw [List.length_append, List.length_cons]
      omega
    have hturn : top done.length < dwLength := by
      rw [UInt32.lt_iff_toNat_lt, toNat_top]
      omega
    have happ : done ++ b :: front = done ++ [b] ++ front := List.append_cons done b front
    have hone : (done ++ [b]).length = done.length + 1 := List.length_append
    obtain ⟨szText', hloop, hstarts, hsame⟩ := ih (by rwa [← happ]) h.dumpByte
    rw [hone, ← happ] at hloop
    refine ⟨szText', ?_, happ ▸ hstarts, fun j hj => ?_⟩
    · rw [List.cons_append, btosLoop_turn hturn, dumpByte_small hsmall (by omega) hturn,
        if_pos (by omega), hloop]
    · rw [hsame j (happ ▸ hj), storeText_behind (by rw [length_hexByte]; omega)]
      exact spaced_above (by omega)

theorem btosLoop_total (dwLength : UInt32) (pBytes : List UInt8) (i : Nat)
    (szText : Nat → Tchar) :
    ∃ n szText', btosLoop dwLength pBytes i (top i) szText = some (n, szText') ∧
      (∀ j, dwLength.toNat ≤ j → szText' j = szText j) ∧
      (2 ^ 31 ≤ dwLength.toNat → szText 0 = 1 ∨ szText 0 = 32 → szText' 0 = 1 ∨ szText' 0 = 32) ∧
      (n = top (i + pBytes.length) ∧ (∀ k, i ≤ k → k < i + pBytes.length → top k < dwLength) ∨
        n = dwLength - 1 ∧ ∃ k, i ≤ k ∧ k < i + pBytes.length ∧ dwLength ≤ top k) := by
  induction pBytes generalizing i szText with
  | nil =>
    refine ⟨top i, szText, rfl, fun j _ => rfl, fun _ h => h, Or.inl ⟨rfl, fun k hk hlt => ?_⟩⟩
    exact absurd hlt (Nat.not_lt.2 hk)
  | cons b pBytes ih =>
    rw [List.length_cons]
    by_cases hturn : top i < dwLength
    · obtain ⟨n, szText', hloop, hsame, hstart, hend⟩ :=
        ih (i + 1) (dumpByte dwLength i b szText)
      refine ⟨n, szText', (btosLoop_turn hturn).trans hloop, fun j hj =>
        ?_, fun hbig h => ?_, ?_⟩
      · rw [hsame j hj, dumpByte_outside hturn hj]
      · exact hstart hbig (dumpByte_start hturn hbig h)
      · rcases hend with ⟨hn, hall⟩ | ⟨hn, k, hk, hlt, hbreak⟩
        · refine Or.inl ⟨by rw [hn, Nat.add_assoc, Nat.add_comm 1], fun k hk hlt => ?_⟩
          rcases Nat.eq_or_lt_of_le hk with rfl | hk
          · exact hturn
          · exact hall k hk (by omega)
        · exact Or.inr ⟨hn, k, by omega, by omega, hbreak⟩
    · have hbreak := UInt32.not_lt.1 hturn
      exact ⟨_, _, btosLoop_break hbreak, fun j _ => rfl, fun _ h => h,
        Or.inr ⟨rfl, i, Nat.le_refl i, by omega, hbreak⟩⟩

end

/-- What a dump of bytes has to do to the memory. -/
structure DumpsTo (pBytes : List UInt8) (dwLength : UInt32) (szText : Nat → Tchar) (n : UInt32)
    (szText' : Nat → Tchar) : Prop where
  within : ∀ j, dwLength.toNat < j → szText' j = szText j
  ends : szText' n.toNat = 0
  cut : (List.range n.toNat).map szText' <+: dump pBytes
  whole : (dump pBytes).length < dwLength.toNat → (List.range n.toNat).map szText' = dump pBytes

/-- Bytes are dumped well, whatever is in the buffer before. -/
def Dumps (pBytes : List UInt8) (dwLength : UInt32) : Prop :=
  ∀ szText, ∃ n szText', rtBtos pBytes dwLength szText = some (n, szText') ∧
    DumpsTo pBytes dwLength szText n szText'

/-- There are no bytes, or they all fit, or at least two do not and the buffer ends with a byte
or with the space behind one. -/
def Roomy (bytes length : Nat) : Prop :=
  bytes = 0 ∨ length < 2 ^ 31 ∧ (3 * bytes ≤ length ∨ length / 3 + 2 ≤ bytes ∧ length % 3 ≤ 1) ∨
    length = 2 ^ 32 - 1 ∧ bytes = 2863311531

section
variable {dwLength n : UInt32} {pBytes front back : List UInt8} {szText szText' : Nat → Tchar}
  {b : UInt8} {k : Nat}

theorem rtBtos_eq (h : btosLoop dwLength pBytes 0 (top 0) szText = some (n, szText')) :
    rtBtos pBytes dwLength szText = some (n, Function.update szText' n.toNat 0) := by
  have hstart : btosLoop dwLength pBytes 0 0 szText = some (n, szText') := h
  rw [rtBtos, hstart]
  rfl

theorem digitChar_ne : ∀ d < 16, digitChar d ≠ 1 ∧ digitChar d ≠ 32 := by
  decide

theorem mem_hexByte {c : Tchar} (h : c ∈ hexByte b) : ∃ d < 16, c = digitChar d := by
  have hb := b.toNat_lt
  rcases List.mem_cons.1 h with rfl | h
  · exact ⟨_, by omega, rfl⟩
  · exact ⟨_, by omega, List.mem_singleton.1 h⟩

theorem one_not_mem_dump (pBytes : List UInt8) : (1 : Tchar) ∉ dump pBytes := by
  induction pBytes with
  | nil => nofun
  | cons b pBytes ih =>
    have hbyte : (1 : Tchar) ∉ hexByte b := by
      intro h
      obtain ⟨d, hd, heq⟩ := mem_hexByte h
      exact (digitChar_ne d hd).1 heq.symm
    by_cases hnil : pBytes = []
    · rwa [hnil, dump_singleton]
    · rw [show b :: pBytes = [b] ++ pBytes from rfl, dump_append (List.cons_ne_nil _ _) hnil,
        dump_singleton, List.mem_append, List.mem_cons]
      rintro (h | h | h)
      · exact hbyte h
      · exact absurd h (by decide)
      · exact ih h

theorem dump_head (h : pBytes ≠ []) : ∃ d < 16, (dump pBytes)[0]? = some (digitChar d) := by
  obtain ⟨b, pBytes, rfl⟩ := List.exists_cons_of_ne_nil h
  have hb := b.toNat_lt
  refine ⟨b.toNat / 16, by omega, ?_⟩
  by_cases hnil : pBytes = []
  · rw [hnil, dump_singleton]
    rfl
  · rw [show b :: pBytes = [b] ++ pBytes from rfl, dump_append (List.cons_ne_nil _ _) hnil,
      dump_singleton]
    rfl

theorem cut_ne_one {n : Nat} (h : (List.range n).map szText <+: dump pBytes) (hk : k < n) :
    szText k ≠ 1 := fun hone =>
  one_not_mem_dump pBytes (h.subset (List.mem_map.2 ⟨k, List.mem_range.2 hk, hone⟩))

theorem dumps_nil (dwLength : UInt32) : Dumps [] dwLength := by
  intro szText
  refine ⟨_, _, rtBtos_eq rfl, fun j hj => ?_, Function.update_self ..,
    List.nil_prefix, fun _ => rfl⟩
  exact Function.update_of_ne (Nat.ne_of_gt (Nat.zero_lt_of_lt hj)) _ _

theorem Starts.map_update {s : List Tchar} (h : Starts szText s) (hn : n.toNat = s.length) :
    (List.range n.toNat).map (Function.update szText n.toNat 0) = s := by
  have hsame : Starts (Function.update szText n.toNat 0) s :=
    h.congr fun j hj => Function.update_of_ne (by omega) _ _
  rw [hn] at hsame ⊢
  exact hsame.map_range

theorem starts_nil (szText : Nat → Tchar) : Starts szText (dump []) := nofun

theorem dumps_fit (hsmall : dwLength.toNat < 2 ^ 31)
    (hfit : 3 * pBytes.length ≤ dwLength.toNat) : Dumps pBytes dwLength := by
  intro szText
  obtain ⟨szText', hloop, hstarts, hsame⟩ := btosLoop_front pBytes [] hsmall
    (by rwa [List.nil_append]) (starts_nil szText)
  rw [List.append_nil] at hloop
  have htop : (top pBytes.length).toNat = (dump pBytes).length := by
    rw [toNat_top_small (by omega), length_dump]
  have hmap := hstarts.map_update htop
  refine ⟨_, _, rtBtos_eq hloop, fun j hj => ?_, Function.update_self .., ?_, fun _ => hmap⟩
  · rw [Function.update_of_ne, hsame j (Nat.le_trans hfit (Nat.le_of_lt hj))]
    rw [List.nil_append, htop, length_dump]
    omega
  · exact hmap ▸ List.prefix_refl _

/-- The turn for the first byte that does not fit stores only the space. -/
theorem btosLoop_overflow (b : UInt8) (back : List UInt8) (hsmall : dwLength.toNat < 2 ^ 31)
    (hpos : 0 < dwLength.toNat) (hq : front.length = dwLength.toNat / 3) (szText : Nat → Tchar) :
    ∃ szText', btosLoop dwLength (front ++ b :: back) 0 (top 0) szText =
        btosLoop dwLength back (front.length + 1) (top (front.length + 1))
          (spaced front.length szText') ∧
      Starts szText' (dump front) ∧ ∀ j, 3 * front.length ≤ j → szText' j = szText j := by
  obtain ⟨szText', hloop, hstarts, hsame⟩ := btosLoop_front front (b :: back) hsmall
    (by rw [List.nil_append]; omega) (starts_nil szText)
  have hturn : top front.length < dwLength := by
    rw [UInt32.lt_iff_toNat_lt, toNat_top]
    omega
  refine ⟨szText', hloop.trans ?_, hstarts, hsame⟩
  rw [List.nil_append, btosLoop_turn hturn, dumpByte_small hsmall (by omega) hturn,
    if_neg (by omega)]
  rfl

theorem not_dumps_last (hsmall : dwLength.toNat < 2 ^ 31) (hpos : 0 < dwLength.toNat)
    (hq : front.length = dwLength.toNat / 3) : ¬ Dumps (front ++ [b]) dwLength := by
  intro h
  obtain ⟨szText', hloop, -, hsame⟩ := btosLoop_overflow b [] hsmall hpos hq fun _ => 1
  obtain ⟨n, szText'', hrun, hdump⟩ := h fun _ => 1
  cases (rtBtos_eq hloop).symm.trans hrun
  have htop : (top (front.length + 1)).toNat = 3 * front.length + 2 := by
    rw [toNat_top_small (by omega)]
    omega
  apply cut_ne_one (k := 3 * front.length) hdump.cut (by omega)
  rw [Function.update_of_ne (by omega), spaced_above (Nat.le_refl _)]
  exact hsame _ (Nat.le_refl _)

theorem toNat_pred (h : 0 < dwLength.toNat) : (dwLength - 1).toNat = dwLength.toNat - 1 :=
  UInt32.toNat_sub_of_le _ _ (UInt32.le_iff_toNat_le.2 h)

theorem dumps_cut_iff {c : UInt8} (hsmall : dwLength.toNat < 2 ^ 31) (hpos : 0 < dwLength.toNat)
    (hq : front.length = dwLength.toNat / 3) :
    Dumps (front ++ b :: c :: back) dwLength ↔ dwLength.toNat % 3 ≤ 1 := by
  have hbreak : dwLength ≤ top (front.length + 1) := by
    rw [UInt32.le_iff_toNat_le, toNat_top_small (by omega)]
    omega
  have hlast := toNat_pred hpos
  constructor
  · intro h
    obtain ⟨szText', hloop, -, hsame⟩ :=
      btosLoop_overflow b (c :: back) hsmall hpos hq fun _ => 1
    rw [btosLoop_break hbreak] at hloop
    obtain ⟨n, szText'', hrun, hdump⟩ := h fun _ => 1
    cases (rtBtos_eq hloop).symm.trans hrun
    by_contra hrest
    apply cut_ne_one (k := 3 * front.length) hdump.cut (by omega)
    rw [Function.update_of_ne (by omega), spaced_above (Nat.le_refl _)]
    exact hsame _ (Nat.le_refl _)
  · intro hrest szText
    obtain ⟨szText', hloop, hstarts, hsame⟩ :=
      btosLoop_overflow b (c :: back) hsmall hpos hq szText
    rw [btosLoop_break hbreak] at hloop
    refine ⟨_, _, rtBtos_eq hloop, fun j hj => ?_, Function.update_self .., ?_, fun hfit => ?_⟩
    · rw [Function.update_of_ne (by omega), spaced_above (by omega)]
      exact hsame j (by omega)
    · by_cases hnil : front = []
      · have hzero : (dwLength - 1).toNat = 0 := by
          rw [hnil, List.length_nil] at hq
          omega
        rw [hzero]
        exact List.nil_prefix
      · have hlen := length_dump front
        have hspaced := hstarts.spaced hnil
        have hcount : front.length ≠ 0 := fun hzero => hnil (List.length_eq_zero_iff.1 hzero)
        rw [dump_append hnil (List.cons_ne_nil _ _)]
        rcases Nat.le_one_iff_eq_zero_or_eq_one.1 hrest with hzero | hone
        · rw [(starts_append.1 hspaced).1.map_update (by omega)]
          exact List.prefix_append _ _
        · rw [hspaced.map_update (by rw [List.length_append, List.length_singleton]; omega),
            List.append_cons (dump front) 32 (dump _)]
          exact List.prefix_append _ _
    · rw [length_dump, List.length_append, List.length_cons, List.length_cons] at hfit
      omega

theorem eq_of_wrapped {m q : Nat} (h : 3 * m = 2 ^ 32 * q + 1) (hm : m ≤ 2 ^ 32) :
    m = 2863311531 := by
  have hq : q < 3 := by
    by_contra hq
    have hle : 2 ^ 32 * 3 ≤ 2 ^ 32 * q := Nat.mul_le_mul_left _ (Nat.le_of_not_lt hq)
    generalize 2 ^ 32 * q = t at h hle
    omega
  match q with
  | 0 => omega
  | 1 => omega
  | 2 => omega

theorem not_last {k : Nat} (hk : k < 2 ^ 32) : (3 * k - 1) % 2 ^ 32 ≠ 2 ^ 32 - 1 := by
  intro hlast
  have hpos : 0 < k := by
    by_contra hzero
    rw [Nat.eq_zero_of_not_pos hzero] at hlast
    cases hlast
  have hdvd : 2 ^ 32 ∣ 3 * k := by
    have hsucc := Nat.add_mod (3 * k - 1) 1 (2 ^ 32)
    rw [hlast, Nat.sub_add_cancel (by omega)] at hsucc
    exact Nat.dvd_of_mod_eq_zero hsucc
  have hcop : Nat.Coprime (2 ^ 32) 3 := by decide
  exact absurd (Nat.le_of_dvd hpos (hcop.dvd_of_dvd_mul_left hdvd)) (Nat.not_le.2 hk)

/-- The length wraps round to 0 for one number of bytes only. -/
theorem wrapped_once {m len : Nat} (hpos : 0 < m) (hlen : len < 2 ^ 32)
    (hzero : (3 * m - 1) % 2 ^ 32 = 0) (hall : ∀ k < m, (3 * k - 1) % 2 ^ 32 < len) :
    len = 2 ^ 32 - 1 ∧ m = 2863311531 := by
  have hlong : 1431655765 < m := by
    by_contra hm
    have hsmall : 3 * m - 1 < 2 ^ 32 := by
      clear hzero
      omega
    rw [Nat.mod_eq_of_lt hsmall] at hzero
    omega
  -- the last turn before the length wraps round
  have hwrap : 2 ^ 32 - 2 < len := hall 1431655765 hlong
  have hshort : m ≤ 2 ^ 32 := by
    by_contra hm
    have hlap : 2 ^ 32 - 1 < len := hall (2 ^ 32) (Nat.lt_of_not_le hm)
    exact absurd hlen (Nat.not_lt.2 hlap)
  refine ⟨Nat.le_antisymm (Nat.le_of_lt_succ hlen) hwrap, ?_⟩
  obtain ⟨q, hq⟩ := Nat.dvd_of_mod_eq_zero hzero
  refine eq_of_wrapped (q := q) ?_ hshort
  rw [← hq, Nat.sub_add_cancel (Nat.mul_pos (by decide) hpos)]

/-- With a length from 2³¹ on, no digits are stored at the start of the buffer. -/
theorem dumps_big_iff (hbig : 2 ^ 31 ≤ dwLength.toNat) (hne : pBytes ≠ []) :
    Dumps pBytes dwLength ↔ dwLength.toNat = 2 ^ 32 - 1 ∧ pBytes.length = 2863311531 := by
  have hpos := List.length_pos_iff.2 hne
  have hlt := dwLength.toNat_lt
  have hlast := toNat_pred (show 0 < dwLength.toNat by omega)
  constructor
  · intro h
    obtain ⟨n, szText', hloop, -, hstart, hend⟩ :=
      btosLoop_total dwLength pBytes 0 fun _ => 1
    have hstart := hstart hbig (Or.inl rfl)
    obtain ⟨n', szText'', hrun, hdump⟩ := h fun _ => 1
    cases (rtBtos_eq hloop).symm.trans hrun
    have hzero : n.toNat = 0 := by
      by_contra hnz
      obtain ⟨d, hd, hhead⟩ := dump_head hne
      obtain ⟨rest, hrest⟩ := hdump.cut
      have hfirst : (Function.update szText' n.toNat 0) 0 = digitChar d := by
        rw [← hrest, List.getElem?_append_left (by simpa using Nat.pos_of_ne_zero hnz),
          List.getElem?_map, List.getElem?_range (Nat.pos_of_ne_zero hnz)] at hhead
        exact Option.some.inj hhead
      rw [Function.update_of_ne (Ne.symm hnz)] at hfirst
      rcases hstart with hone | hspace
      · exact (digitChar_ne d hd).1 (hfirst.symm.trans hone)
      · exact (digitChar_ne d hd).2 (hfirst.symm.trans hspace)
    rcases hend with ⟨rfl, hall⟩ | ⟨rfl, -⟩
    · rw [Nat.zero_add] at hzero hall
      have htop : ∀ k < pBytes.length, (3 * k - 1) % 2 ^ 32 < dwLength.toNat := fun k hk =>
        toNat_top k ▸ UInt32.lt_iff_toNat_lt.1 (hall k (Nat.zero_le k) hk)
      rw [toNat_top] at hzero
      exact wrapped_once hpos hlt hzero htop
    · omega
  · rintro ⟨hlen, hcount⟩ szText
    obtain ⟨n, szText', hloop, hsame, -, hend⟩ :=
      btosLoop_total dwLength pBytes 0 szText
    have hzero : n.toNat = 0 := by
      rcases hend with ⟨rfl, -⟩ | ⟨-, k, -, hk, hbreak⟩
      · rw [Nat.zero_add, toNat_top, hcount]
        rfl
      · rw [UInt32.le_iff_toNat_le, toNat_top, hlen] at hbreak
        have hmod := Nat.mod_lt (3 * k - 1) (show 2 ^ 32 > 0 by decide)
        exact absurd (Nat.le_antisymm (Nat.le_of_lt_succ hmod) hbreak) (not_last (by omega))
    refine ⟨n, _, rtBtos_eq hloop, fun j hj => ?_, Function.update_self .., ?_, fun hfit => ?_⟩
    · rw [Function.update_of_ne (by omega), hsame j (Nat.le_of_lt hj)]
    · rw [hzero]
      exact List.nil_prefix
    · rw [length_dump] at hfit
      omega

/-- Bytes are dumped well if and only if there is room for them in this sense. -/
theorem dumps_iff (h : 0 < dwLength) :
    Dumps pBytes dwLength ↔ Roomy pBytes.length dwLength.toNat := by
  have hpos : 0 < dwLength.toNat := UInt32.lt_iff_toNat_lt.1 h
  rw [Roomy]
  by_cases hnil : pBytes = []
  · rw [hnil]
    exact iff_of_true (dumps_nil dwLength) (Or.inl rfl)
  have hcount : pBytes.length ≠ 0 := fun hzero => hnil (List.length_eq_zero_iff.1 hzero)
  rcases Nat.lt_or_ge dwLength.toNat (2 ^ 31) with hsmall | hbig
  · rw [or_iff_right hcount, or_iff_left (by omega), and_iff_right hsmall]
    by_cases hfit : 3 * pBytes.length ≤ dwLength.toNat
    · exact iff_of_true (dumps_fit hsmall hfit) (Or.inl hfit)
    rw [or_iff_right hfit]
    -- the bytes that fit, and those that do not
    obtain ⟨front, rest, rfl, hq⟩ : ∃ front rest, pBytes = front ++ rest ∧
        front.length = dwLength.toNat / 3 :=
      ⟨_, _, (List.take_append_drop (dwLength.toNat / 3) pBytes).symm,
        List.length_take_of_le (by omega)⟩
    rw [List.length_append] at hfit ⊢
    match rest with
    | [] => exact absurd hfit (by rw [List.length_nil]; omega)
    | [b] =>
      apply iff_of_false (not_dumps_last hsmall hpos hq)
      intro hroom
      rw [List.length_singleton] at hroom
      omega
    | b :: c :: back =>
      rw [dumps_cut_iff hsmall hpos hq, List.length_cons, List.length_cons]
      omega
  · rw [dumps_big_iff hbig hnil]
    omega

end

/-- Two bytes are dumped in full. -/
theorem dumps_iff_two : Dumps [0xC3, 0x90] 6 ↔
      Roomy [(0xC3 : UInt8), 0x90].length (6 : UInt32).toNat :=
  dumps_iff (by decide)

/-- One byte is dumped into a buffer of two characters. -/
theorem one_byte_overruns : ¬ ∀ (pBytes : List UInt8) (dwLength : UInt32), 0 < dwLength →
    Dumps pBytes dwLength := fun h =>
  have hlast : ¬ Dumps ([] ++ [0]) 2 := not_dumps_last (by decide) (by decide) rfl
  hlast (h [0] 2 (by decide))

end Misc.ZaxInspector
