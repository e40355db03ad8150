import Mathlib.Data.List.Chain
import Misc.Jsoniter.Rfc8259

namespace Misc.Jsoniter
set_option autoImplicit true

/-- A function that returns an error, or an index or a slice out of range. -/
inductive Fault
  | error (text : String)
  | panic
  deriving DecidableEq, Repr

/-- A string of 128 bytes, all of them `0` but for those of the escapes. -/
def escapetable (c : UInt8) : UInt8 :=
  if c = ch '"' ∨ c = ch '/' ∨ c = ch '\\' ∨ c = ch 'u' then c
  else if c = ch 'b' then 8
  else if c = ch 'f' then 12
  else if c = ch 'n' then 10
  else if c = ch 'r' then 13
  else if c = ch 't' then 9
  else ch '0'

/-- `utf8.EncodeRune`, which writes U+FFFD for what is not a code point. -/
def encodeRune (r : Nat) : List UInt8 :=
  if r.isValidChar then String.utf8EncodeChar (Char.ofNat r) else [0xEF, 0xBF, 0xBD]

def hexval (c : UInt8) : Option Nat :=
  if isdigit c then some (c - ch '0').toNat
  else if ch 'A' ≤ c ∧ c ≤ ch 'F' then some (c - ch 'A' + 10).toNat
  else if ch 'a' ≤ c ∧ c ≤ ch 'f' then some (c - ch 'a' + 10).toNat
  else none

def hex (s : List UInt8) : Except Fault Nat :=
  s.foldlM (fun uc c =>
    match hexval c with
    | some d => .ok (uc <<< 4 ||| d)
    | none => .error (.error ("invalid unicode escape sequence: '" ++ fmtC c ++ "'"))) 0

/-- The loop of `UnescapeString`, which goes on as long as another byte follows. -/
def unescape : List UInt8 → Except Fault (List UInt8)
  | c :: d :: s =>
    if c = ch '\\' then
      if 128 ≤ d ∨ escapetable d = ch '0' then
        .error (.error ("invalid escape character: '" ++ fmtC d ++ "'"))
      else if d = ch 'u' then
        match s with
        | h₁ :: h₂ :: h₃ :: h₄ :: s => do
          let uc ← hex [h₁, h₂, h₃, h₄]
          return encodeRune uc ++ (← unescape s)
        | s => do
          let _ ← hex s
          throw .panic
      else do return escapetable d :: (← unescape s)
    else do return c :: (← unescape (d :: s))
  | _ => .ok []

def UnescapeString (s : List UInt8) : Except Fault (List UInt8) := unescape s.tail

/-- A byte of a string, or a UTF-16 code unit that it has an escape for. -/
inductive CodeUnit
  | byte (c : UInt8)
  | code (u : Nat)
  deriving DecidableEq, Repr

def escaped (c : UInt8) : UInt8 :=
  if c = ch 'b' then 8
  else if c = ch 'f' then 12
  else if c = ch 'n' then 10
  else if c = ch 'r' then 13
  else if c = ch 't' then 9
  else c

def hexcode (s : List UInt8) : Nat := s.foldl (fun u c => 16 * u + (hexval c).getD 0) 0

/-- What the characters of a string literal stand for. -/
def units : List UInt8 → List CodeUnit
  | c :: d :: s =>
    if c = ch '\\' then
      if d = ch 'u' then
        match s with
        | h₁ :: h₂ :: h₃ :: h₄ :: s => .code (hexcode [h₁, h₂, h₃, h₄]) :: units s
        | _ => []
      else .byte (escaped d) :: units s
    else .byte c :: units (d :: s)
  | [c] => [.byte c]
  | [] => []

def CodeUnit.utf8 : CodeUnit → List UInt8
  | .byte c => [c]
  | .code u => encodeRune u

/-- A high surrogate and a low one. -/
def Surrogates (u v : Nat) : Prop := 0xD800 ≤ u ∧ u < 0xDC00 ∧ 0xDC00 ≤ v ∧ v < 0xE000

instance (u v : Nat) : Decidable (Surrogates u v) := inferInstanceAs (Decidable (_ ∧ _))

/-- The text in UTF-8, where two surrogates are one code point. -/
def utf8 : List CodeUnit → List UInt8
  | .code u :: .code v :: us =>
    if Surrogates u v then encodeRune (0x10000 + (u - 0xD800) * 0x400 + (v - 0xDC00)) ++ utf8 us
    else encodeRune u ++ utf8 (.code v :: us)
  | u :: us => u.utf8 ++ utf8 us
  | [] => []

def text (s : List UInt8) : List UInt8 := utf8 (units s.tail.dropLast)

/-- No escape of a high surrogate is followed by one of a low surrogate. -/
def Unpaired (us : List CodeUnit) : Prop :=
  us.IsChain fun a b => ∀ u v, a = .code u → b = .code v → ¬ Surrogates u v

theorem unescape_byte {c : UInt8} {s t : List UInt8} (hc : c ≠ ch '\\') (hs : s ≠ [])
    (h : unescape s = .ok t) : unescape (c :: s) = .ok (c :: t) := by
  cases s with
  | nil => exact absurd rfl hs
  | cons d s =>
    rw [unescape.eq_def]
    dsimp only
    rw [if_neg hc, h]
    rfl

theorem unescape_escape {c : UInt8} {s t : List UInt8}
    (hc : ¬ (128 ≤ c ∨ escapetable c = ch '0')) (hu : c ≠ ch 'u') (h : unescape s = .ok t) :
    unescape (ch '\\' :: c :: s) = .ok (escapetable c :: t) := by
  rw [unescape.eq_def]
  dsimp only
  rw [if_pos rfl, if_neg hc, if_neg hu, h]
  rfl

theorem unescape_unicode {h₁ h₂ h₃ h₄ : UInt8} {u : Nat} {s t : List UInt8}
    (hu : hex [h₁, h₂, h₃, h₄] = .ok u) (h : unescape s = .ok t) :
    unescape (ch '\\' :: ch 'u' :: h₁ :: h₂ :: h₃ :: h₄ :: s) = .ok (encodeRune u ++ t) := by
  rw [unescape, if_pos rfl, if_neg (by decide), if_pos rfl, hu]
  dsimp only [bind, Except.bind]
  rw [h]
  rfl

theorem escapetable_escaped {c : UInt8}
    (h : c ∈ [ch '"', ch '\\', ch '/', ch 'b', ch 'f', ch 'n', ch 'r', ch 't']) :
    ¬ (128 ≤ c ∨ escapetable c = ch '0') ∧ c ≠ ch 'u' ∧ escapetable c = escaped c := by
  simp only [List.mem_cons, List.not_mem_nil, or_false] at h
  rcases h with rfl | rfl | rfl | rfl | rfl | rfl | rfl | rfl <;> decide

theorem toNat_sub_le {a b c : UInt8} (h : a ≤ c ∧ c ≤ b) :
    (c - a).toNat ≤ b.toNat - a.toNat := by
  rw [UInt8.toNat_sub_of_le _ _ h.1]
  exact Nat.sub_le_sub_right (UInt8.le_iff_toNat_le.1 h.2) _

theorem hexval_of_hexdigit {c : UInt8} (h : hexdigit c = true) :
    ∃ d < 16, hexval c = some d := by
  have hletter {a b : UInt8} (hc : a ≤ c ∧ c ≤ b) (hab : b.toNat - a.toNat = 5) :
      (c - a + 10).toNat < 16 := by
    have hle := toNat_sub_le hc
    rw [hab] at hle
    have hten : (10 : UInt8).toNat = 10 := rfl
    rw [UInt8.toNat_add, hten]
    omega
  simp only [hexdigit, Bool.or_eq_true, Bool.and_eq_true, decide_eq_true_eq] at h
  rw [hexval]
  split_ifs with hd hA ha
  · rw [isdigit, Bool.and_eq_true, decide_eq_true_eq, decide_eq_true_eq] at hd
    exact ⟨_, Nat.lt_of_le_of_lt (toNat_sub_le hd) (by decide), rfl⟩
  · exact ⟨_, hletter hA rfl, rfl⟩
  · exact ⟨_, hletter ha rfl, rfl⟩
  · rcases h with (h | h) | h
    · exact absurd h hd
    · exact absurd h ha
    · exact absurd h hA

theorem hex_hexcode {s : List UInt8} (h : ∀ c ∈ s, hexdigit c = true) :
    hex s = .ok (hexcode s) := by
  have hfold (u : Nat) : s.foldlM (fun uc c =>
      match hexval c with
      | some d => .ok (uc <<< 4 ||| d)
      | none => .error (.error ("invalid unicode escape sequence: '" ++ fmtC c ++ "'"))) u =
        (.ok (s.foldl (fun u c => 16 * u + (hexval c).getD 0) u) : Except Fault Nat) := by
    induction s generalizing u with
    | nil => rfl
    | cons c s ih =>
      obtain ⟨hc, hs⟩ := List.forall_mem_cons.1 h
      obtain ⟨d, hd, hval⟩ := hexval_of_hexdigit hc
      have hor : u <<< 4 ||| d = 16 * u + d := by
        rw [← Nat.shiftLeft_add_eq_or_of_lt hd, Nat.shiftLeft_eq, Nat.mul_comm]
      rw [List.foldlM_cons, List.foldl_cons, hval]
      dsimp only [bind, Except.bind]
      rw [hor]
      exact ih hs _
  exact hfold 0

theorem units_byte {c : UInt8} (hc : c ≠ ch '\\') (b : List UInt8) :
    units (c :: b) = .byte c :: units b := by
  cases b with
  | nil => rfl
  | cons d b =>
    rw [units.eq_def]
    dsimp only
    rw [if_neg hc]

theorem units_escape {c : UInt8} (hc : c ≠ ch 'u') (b : List UInt8) :
    units (ch '\\' :: c :: b) = .byte (escaped c) :: units b := by
  rw [units.eq_def]
  dsimp only
  rw [if_pos rfl, if_neg hc]

theorem unescape_chars (h : Chars b) :
    unescape (b ++ [ch '"']) = .ok ((units b).flatMap CodeUnit.utf8) := by
  induction h with
  | nil => rfl
  | unescaped _ _ hc _ ih =>
    rw [units_byte hc]
    exact unescape_byte hc (by simp) ih
  | escape hc _ ih =>
    obtain ⟨h0, hu, he⟩ := escapetable_escaped hc
    rw [units_escape hu, ← he]
    exact unescape_escape h0 hu ih
  | @unicode c₁ c₂ c₃ c₄ b h₁ h₂ h₃ h₄ _ ih =>
    rw [units, if_pos rfl, if_pos rfl]
    apply unescape_unicode (hex_hexcode ?_) ih
    simp [h₁, h₂, h₃, h₄]

theorem utf8_unpaired {us : List CodeUnit} (h : Unpaired us) :
    utf8 us = us.flatMap CodeUnit.utf8 := by
  fun_induction utf8 us with
  | case1 u v us huv => exact absurd huv (List.IsChain.rel h u v rfl rfl)
  | case2 u v us huv ih =>
    rw [ih (List.IsChain.tail h), List.flatMap_cons]
    rfl
  | case3 u us _ ih => rw [ih (List.IsChain.tail h), List.flatMap_cons]
  | case4 => rfl

/-- `UnescapeString` returns the text of a string literal that has no escapes of surrogate
pairs. -/
theorem unescapeString_text {s : List UInt8} (h : Rfc .string s)
    (hs : Unpaired (units s.tail.dropLast)) : UnescapeString s = .ok (text s) := by
  cases h with
  | @string b hb =>
    have hdrop : (ch '"' :: (b ++ [ch '"'])).tail.dropLast = b := List.dropLast_concat
    rw [hdrop] at hs
    rw [UnescapeString, text, hdrop, utf8_unpaired hs]
    exact unescape_chars hb

theorem encodeRune_length (r : Nat) : (encodeRune r).length ≤ 4 := by
  rw [encodeRune]
  split_ifs
  · rw [String.length_utf8EncodeChar]
    exact Char.utf8Size_le_four _
  · decide

theorem encodeRune_surrogate {u : Nat} (h : 0xD800 ≤ u) (h' : u < 0xE000) :
    encodeRune u = [0xEF, 0xBF, 0xBD] := by
  apply if_neg
  rw [Nat.isValidChar]
  omega

theorem unpaired_cons {a : CodeUnit} {us : List CodeUnit}
    (h : ∀ u v vs, a = .code u → us = .code v :: vs → ¬ Surrogates u v) (hus : Unpaired us) :
    Unpaired (a :: us) := by
  cases us with
  | nil => exact List.isChain_singleton _
  | cons b us =>
    refine List.isChain_cons_cons.2 ⟨?_, hus⟩
    rintro u v rfl rfl
    exact h u v us rfl rfl

theorem utf8_length_le (us : List CodeUnit) :
    (utf8 us).length ≤ (us.flatMap CodeUnit.utf8).length := by
  fun_induction utf8 us with
  | case1 u v us huv ih =>
    have hle := encodeRune_length (0x10000 + (u - 0xD800) * 0x400 + (v - 0xDC00))
    obtain ⟨hu, hu', hv, hv'⟩ := huv
    simp only [List.flatMap_cons, List.length_append, CodeUnit.utf8,
      encodeRune_surrogate hu (by omega : u < 0xE000),
        encodeRune_surrogate (by omega : 0xD800 ≤ v) hv',
      List.length_cons, List.length_nil]
    omega
  | case2 u v us _ ih =>
    rw [List.flatMap_cons, List.length_append, List.length_append]
    exact Nat.add_le_add_left ih _
  | case3 u us _ ih =>
    rw [List.flatMap_cons, List.length_append, List.length_append]
    exact Nat.add_le_add_left ih _
  | case4 => exact Nat.le_refl 0

theorem utf8_length_lt {us : List CodeUnit} (h : ¬ Unpaired us) :
    (utf8 us).length < (us.flatMap CodeUnit.utf8).length := by
  fun_induction utf8 us with
  | case1 u v us huv =>
    have hle := encodeRune_length (0x10000 + (u - 0xD800) * 0x400 + (v - 0xDC00))
    have hus := utf8_length_le us
    obtain ⟨hu, hu', hv, hv'⟩ := huv
    simp only [List.flatMap_cons, List.length_append, CodeUnit.utf8,
      encodeRune_surrogate hu (by omega : u < 0xE000),
        encodeRune_surrogate (by omega : 0xD800 ≤ v) hv',
      List.length_cons, List.length_nil]
    omega
  | case2 u v us huv ih =>
    have hus : ¬ Unpaired (.code v :: us) := fun hus => h (unpaired_cons (by
      rintro u v vs ⟨⟩ ⟨⟩
      exact huv) hus)
    rw [List.flatMap_cons, List.length_append, List.length_append]
    exact Nat.add_lt_add_left (ih hus) _
  | case3 u us hne ih =>
    have hus : ¬ Unpaired us := fun hus => h (unpaired_cons (by
      rintro u v vs rfl rfl
      exact absurd rfl (hne u v vs rfl)) hus)
    rw [List.flatMap_cons, List.length_append, List.length_append]
    exact Nat.add_lt_add_left (ih hus) _
  | case4 => exact absurd List.IsChain.nil h

/-- `UnescapeString` returns the text of a string literal exactly if the literal has no escapes
of a surrogate pair. -/
theorem unescapeString_text_iff {s : List UInt8} (h : Rfc .string s) :
    UnescapeString s = .ok (text s) ↔ Unpaired (units s.tail.dropLast) := by
  refine ⟨fun heq => ?_, unescapeString_text h⟩
  by_contra hs
  cases h with
  | @string b hb =>
    have hdrop : (ch '"' :: (b ++ [ch '"'])).tail.dropLast = b := List.dropLast_concat
    rw [hdrop] at hs
    have hlt := utf8_length_lt hs
    rw [UnescapeString, List.tail_cons, unescape_chars hb, text, hdrop, Except.ok.injEq] at heq
    rw [heq] at hlt
    exact Nat.lt_irrefl _ hlt

/-- A line break and a byte that is written as its code. -/
theorem unescapeString_text_line :
    UnescapeString [ch '"', ch '\\', ch 'n', ch '\\', ch 'u', ch '0', ch '0',
      ch '4', ch '1', ch '"'] =
      .ok
        (text [ch '"', ch '\\', ch 'n', ch '\\', ch 'u', ch '0', ch '0',
        ch '4', ch '1', ch '"']) :=
  (unescapeString_text_iff (.string (.escape (by decide) (.unicode rfl rfl rfl rfl .nil)))).2
    (List.isChain_cons_cons.2 ⟨nofun, List.isChain_singleton _⟩)

/-- Of the escapes for U+1F600 each is written by itself, as U+FFFD. -/
theorem unescapeString_pair :
    let s :=
  [ch '"', ch '\\', ch 'u', ch 'd', ch '8', ch '3', ch 'd', ch '\\', ch 'u', ch 'd', ch 'e',
      ch '0', ch '0', ch '"']
    Rfc .string s ∧ UnescapeString s = .ok [0xEF, 0xBF, 0xBD, 0xEF, 0xBF, 0xBD] ∧
      text s = [0xF0, 0x9F, 0x98, 0x80] :=
  ⟨.string (.unicode rfl rfl rfl rfl (.unicode rfl rfl rfl rfl .nil)), rfl, rfl⟩

theorem flatMap_utf8_length (h : Chars b) :
    ((units b).flatMap CodeUnit.utf8).length ≤ b.length := by
  induction h with
  | nil => exact Nat.le_refl 0
  | unescaped _ _ hc _ ih =>
    rw [units_byte hc, List.flatMap_cons, List.length_append, List.length_cons, Nat.add_comm]
    exact Nat.add_le_add_right ih 1
  | escape hc _ ih =>
    obtain ⟨-, hu, -⟩ := escapetable_escaped hc
    rw [units_escape hu, List.flatMap_cons, List.length_append,
      List.length_cons, List.length_cons]
    dsimp only [CodeUnit.utf8, List.length_singleton]
    omega
  | @unicode c₁ c₂ c₃ c₄ b _ _ _ _ _ ih =>
    have hle := encodeRune_length (hexcode [c₁, c₂, c₃, c₄])
    rw [units, if_pos rfl, if_pos rfl, List.flatMap_cons, List.length_append]
    simp only [CodeUnit.utf8, List.length_cons]
    omega

theorem text_length {s : List UInt8} (h : Rfc .string s)
    (hs : Unpaired (units s.tail.dropLast)) : (text s).length ≤ s.length := by
  cases h with
  | @string b hb =>
    have hdrop : (ch '"' :: (b ++ [ch '"'])).tail.dropLast = b := List.dropLast_concat
    rw [hdrop] at hs
    rw [text, hdrop, utf8_unpaired hs]
    have hle := flatMap_utf8_length hb
    rw [List.length_cons, List.length_append]
    omega

end Misc.Jsoniter
