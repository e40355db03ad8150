import Mathlib.Tactic.SplitIfs
import Misc.Dotjson.Comments
import Misc.Dotjson.Soundness

namespace Misc.Dotjson
set_option autoImplicit true

/-! Spaces and comments in front of tokens change nothing for the decoder that skips them. -/

/-- Spaces, block comments and line comments with the newline that ends them. -/
inductive Filler : List UInt8 → Prop
  | nil : Filler []
  | space : isSpace c = true → Filler u → Filler (c :: u)
  | line : 0 ∉ b → ch '\n' ∉ b → Filler u → Filler (ch '/' :: ch '/' :: (b ++ ch '\n' :: u))
  | block : 0 ∉ b → ¬ [ch '*', ch '/'] <:+: b → Filler u →
      Filler (ch '/' :: ch '*' :: (b ++ ch '*' :: ch '/' :: u))

def marks : List UInt8 := [ch '{', ch '}', ch '[', ch ']', ch ':', ch ',']

def words : List (List UInt8) :=
  [[ch 'n', ch 'u', ch 'l', ch 'l'], [ch 'f', ch 'a', ch 'l', ch 's', ch 'e'],
    [ch 't', ch 'r', ch 'u', ch 'e']]

inductive Token : List UInt8 → Prop
  | mark : c ∈ marks → Token [c]
  | word : b ∈ words → Token b
  | number : IsNumber b → Token b
  | string : IsString b s → Token b

/-- The second text is the first with fillers in front of tokens. A number is a token as a
whole, and what follows the last of the tokens may stay as it is. -/
inductive Inserted : Ptr → Ptr → Prop
  | rest : Inserted p p
  | fill : Filler u → Inserted p p' → Inserted p (u ++ p')
  | space : isSpace c = true → Inserted p p' → Inserted (c :: p) (c :: p')
  | token : Token t → (IsNumber t → NumberEnd p) → Inserted p p' → Inserted (t ++ p) (t ++ p')

/-! ## Fillers -/

theorem ignoreChars_jump (h : ∀ k, redoIgnore (k + 1) p = redoIgnore k r)
    (hlt : r.length < p.length) : ignoreChars p = ignoreChars r :=
  ignoreChars_eq ((h _).trans (redoIgnore_eq hlt)) (Nat.lt_succ_self _)

theorem ignoreChars_space (hc : isSpace c = true) (p : Ptr) :
    ignoreChars (c :: p) = ignoreChars p := by
  have hu : Space [c] := fun d hd => by rwa [List.mem_singleton.1 hd]
  have hredo := redoIgnore_space hu ((c :: p).length + 1) p
  rw [redoIgnore_eq (show p.length < (c :: p).length + 1 by
    rw [List.length_cons]; omega)] at hredo
  exact ignoreChars_eq hredo (Nat.lt_succ_self _)

theorem lineComment_end (h₀ : 0 ∉ b) (hb : ch '\n' ∉ b) (p : Ptr) :
    lineComment (b ++ ch '\n' :: p) = p := by
  induction b with
  | nil => rfl
  | cons c b ih =>
    rw [List.mem_cons, not_or] at h₀ hb
    rw [List.cons_append, lineComment, if_neg (Ne.symm h₀.1), if_neg (Ne.symm hb.1)]
    exact ih h₀.2 hb.2

theorem blockComment_end (h₀ : 0 ∉ b) (hb : ¬ [ch '*', ch '/'] <:+: b) (p : Ptr) :
    blockComment (b ++ ch '*' :: ch '/' :: p) = p := by
  induction b with
  | nil => rfl
  | cons c b ih =>
    rw [List.mem_cons, not_or] at h₀
    have hend : ¬ (c = ch '*' ∧ byteAt (b ++ ch '*' :: ch '/' :: p) 0 = ch '/') := by
      rintro ⟨rfl, hslash⟩
      cases b with
      | nil =>
        rw [List.nil_append, byteAt_zero] at hslash
        exact absurd hslash (by decide)
      | cons d b =>
        rw [List.cons_append, byteAt_zero] at hslash
        rw [hslash] at hb
        exact hb ⟨[], b, rfl⟩
    rw [List.cons_append, blockComment, if_neg (Ne.symm h₀.1), if_neg hend]
    exact ih h₀.2 fun h => hb (h.trans (List.suffix_cons c b).isInfix)

theorem Filler.skip (h : Filler u) (p : Ptr) : ignoreChars (u ++ p) = ignoreChars p := by
  induction h with
  | nil => rfl
  | space hc _ ih => rw [List.cons_append, ignoreChars_space hc, ih]
  | @line b u h₀ hb _ ih =>
    have hend := lineComment_end h₀ hb (u ++ p)
    rw [List.cons_append, List.cons_append, List.append_assoc, List.cons_append, ← ih]
    apply ignoreChars_jump (fun k => by rw [redoIgnore_line, hend])
    simp
    omega
  | @block b u h₀ hb _ ih =>
    have hend := blockComment_end h₀ hb (u ++ p)
    rw [List.cons_append, List.cons_append, List.append_assoc, List.cons_append,
      List.cons_append, ← ih]
    apply ignoreChars_jump (fun k => by rw [redoIgnore_block, hend])
    simp
    omega

theorem Filler.head (h : Filler u) :
    u = [] ∨ ∃ c v, u = c :: v ∧ (isSpace c = true ∨ c = ch '/') := by
  cases h with
  | nil => exact .inl rfl
  | space hc _ => exact .inr ⟨_, _, rfl, .inl hc⟩
  | line | block => exact .inr ⟨_, _, rfl, .inr rfl⟩

/-! ## Tokens -/

theorem word_head (h : b ∈ words) :
    ∃ c r, b = c :: r ∧ (c = ch 'n' ∨ c = ch 'f' ∨ c = ch 't') := by
  simp only [words, List.mem_cons, List.not_mem_nil, or_false] at h
  rcases h with rfl | rfl | rfl
  · exact ⟨_, _, rfl, .inl rfl⟩
  · exact ⟨_, _, rfl, .inr (.inl rfl)⟩
  · exact ⟨_, _, rfl, .inr (.inr rfl)⟩

/-- How the tokens start. -/
inductive Start : UInt8 → Prop
  | mark : c ∈ marks → Start c
  | word : c = ch 'n' ∨ c = ch 'f' ∨ c = ch 't' → Start c
  | number : isDigit c = true ∨ isSign c = true → Start c
  | string : Start (ch '"')

theorem Token.head (h : Token t) : ∃ c r, t = c :: r ∧ Start c := by
  cases h with
  | mark hc => exact ⟨_, _, rfl, .mark hc⟩
  | word hb =>
    obtain ⟨c, r, rfl, hc⟩ := word_head hb
    exact ⟨c, r, rfl, .word hc⟩
  | number hb =>
    obtain ⟨c, r, rfl, hc⟩ := hb.head
    exact ⟨c, r, rfl, .number hc⟩
  | string hb =>
    obtain ⟨r, rfl⟩ := hb.ne_nil
    exact ⟨_, r, rfl, .string⟩

theorem mem_marks (hc : c ∈ marks) : c = ch '{' ∨ c = ch '}' ∨ c = ch '[' ∨
      c = ch ']' ∨ c = ch ':' ∨
    c = ch ',' := by
  simpa only [marks, List.mem_cons, List.not_mem_nil, or_false] using hc

theorem Start.spec (h : Start c) : isSpace c = false ∧ c ≠ ch '/' ∧ c ≠ 0 := by
  cases h with
  | mark hc => rcases mem_marks hc with rfl | rfl | rfl | rfl | rfl | rfl <;> decide
  | word hc => rcases hc with rfl | rfl | rfl <;> decide
  | number hc =>
    obtain ⟨hspace, -, -, -, hne⟩ := isSpace_of_number hc
    refine ⟨hspace, ?_, hne⟩
    rintro rfl
    exact absurd hc (by decide)
  | string => decide

theorem ignoreChars_cons (hc : isSpace c = false) (hne : c ≠ ch '/') (p : Ptr) :
    ignoreChars (c :: p) = c :: p := by
  refine ignoreChars_eq (k := (c :: p).length + 1) ?_ (Nat.lt_succ_self _)
  rw [redoIgnore, ignoreSpace_cons hc, byteAt_zero, if_neg hne]

theorem mark_ne (hc : c ∈ marks) : ¬ (isDigit c = true ∨ isSign c = true) ∧ c ≠ ch '"' ∧
    ¬ (c = ch 'n' ∨ c = ch 'f' ∨ c = ch 't') := by
  rcases mem_marks hc with rfl | rfl | rfl | rfl | rfl | rfl <;> decide

theorem Token.of_mark (h : Token (c :: t)) (hc : c ∈ marks) : t = [] := by
  obtain ⟨hd, hq, hw⟩ := mark_ne hc
  cases h with
  | mark => rfl
  | word hb =>
    obtain ⟨_, _, heq, hx⟩ := word_head hb
    cases heq
    exact absurd hx hw
  | number hb =>
    obtain ⟨_, _, heq, hx⟩ := hb.head
    cases heq
    exact absurd hx hd
  | string hb =>
    obtain ⟨_, heq⟩ := hb.ne_nil
    cases heq
    exact absurd rfl hq

theorem Token.of_quote (h : Token (c :: t)) (hc : c = ch '"') : ∃ s, IsString (c :: t) s := by
  cases h with
  | mark hm => exact absurd hc (mark_ne hm).2.1
  | word hb =>
    obtain ⟨_, _, heq, hx⟩ := word_head hb
    cases heq
    rw [hc] at hx
    exact absurd hx (by decide)
  | number hn =>
    obtain ⟨_, _, heq, hx⟩ := hn.head
    cases heq
    rw [hc] at hx
    exact absurd hx (by decide)
  | string hs => exact ⟨_, hs⟩

theorem Token.of_digit (h : Token (c :: t)) (hc : isDigit c = true ∨ isSign c = true) :
    IsNumber (c :: t) := by
  cases h with
  | mark hm => exact absurd hc (mark_ne hm).1
  | word hb =>
    obtain ⟨_, _, heq, hx⟩ := word_head hb
    cases heq
    rcases hx with rfl | rfl | rfl <;> exact absurd hc (by decide)
  | number hb => exact hb
  | string hb =>
    obtain ⟨_, heq⟩ := hb.ne_nil
    cases heq
    exact absurd hc (by decide)

theorem Token.of_letter (h : Token (c :: t)) (hc : c = ch 'n' ∨ c = ch 'f' ∨ c = ch 't') :
    (c :: t) ∈ words := by
  cases h with
  | mark hm => exact absurd hc (mark_ne hm).2.2
  | word hb => exact hb
  | number hb =>
    obtain ⟨_, _, heq, hx⟩ := hb.head
    cases heq
    rcases hc with rfl | rfl | rfl <;> exact absurd hx (by decide)
  | string hb =>
    obtain ⟨_, heq⟩ := hb.ne_nil
    cases heq
    exact absurd hc (by decide)

/-! ## Texts with fillers -/

theorem Inserted.length_le (h : Inserted p p') : p.length ≤ p'.length := by
  induction h with
  | rest => exact Nat.le_refl _
  | fill _ _ ih =>
    rw [List.length_append]
    omega
  | space _ _ ih => exact Nat.succ_le_succ ih
  | token _ _ _ ih =>
    rw [List.length_append, List.length_append]
    omega

theorem Inserted.byte_ne (h : Inserted p p') (hp : byteAt p 0 ≠ 0) : byteAt p' 0 ≠ 0 := by
  induction h with
  | rest | space => exact hp
  | fill hu _ ih =>
    rcases hu.head with rfl | ⟨c, v, rfl, hc⟩
    · exact ih hp
    · rw [List.cons_append, byteAt_zero]
      rcases hc with hc | rfl
      · exact isSpace_ne_zero hc
      · decide
  | token ht =>
    obtain ⟨c, r, rfl, -⟩ := ht.head
    exact hp

theorem Inserted.numberEnd (h : Inserted p p') (hp : NumberEnd p) : NumberEnd p' := by
  induction h with
  | rest | space => exact hp
  | fill hu _ ih =>
    rcases hu.head with rfl | ⟨c, v, rfl, hc | rfl⟩
    · exact ih hp
    · exact .of_isSpace hc _
    · exact .of_byte (by decide) _
  | token ht =>
    obtain ⟨c, r, rfl, -⟩ := ht.head
    exact hp

/-- Both texts stand in front of the same token, or they are the same. -/
structure At (p p' : Ptr) : Prop where
  skip : ignoreSpace p = p
  skips : ignoreChars p' = p'
  next : p = p' ∨ ∃ t r r', Token t ∧ (IsNumber t → NumberEnd r) ∧ Inserted r r' ∧
    p = t ++ r ∧ p' = t ++ r'

theorem Inserted.at (h : Inserted p p') (hne : byteAt (ignoreSpace p) 0 ≠ ch '/') :
    At (ignoreSpace p) (ignoreChars p') := by
  refine ⟨ignoreSpace_idem p, ignoreChars_idem p', ?_⟩
  induction h with
  | @rest p =>
    have hstop : redoIgnore (p.length + 1) p = some (ignoreSpace p) := by
      rw [redoIgnore, if_neg hne]
    exact .inl (ignoreChars_eq hstop (Nat.lt_succ_self _)).symm
  | fill hu _ ih =>
    rw [hu.skip]
    exact ih hne
  | @space c p p' hc _ ih =>
    have hskip : ignoreSpace (c :: p) = ignoreSpace p := by
      rw [ignoreSpace, List.dropWhile_cons, if_pos hc]
      rfl
    rw [hskip] at hne ⊢
    rw [ignoreChars_space hc]
    exact ih hne
  | @token t p p' ht hend hp =>
    obtain ⟨c, r, rfl, hc⟩ := ht.head
    obtain ⟨hspace, hslash, -⟩ := hc.spec
    refine .inr ⟨c :: r, p, p', ht, hend, hp, ?_, ?_⟩
    · rw [List.cons_append, ignoreSpace_cons hspace]
    · rw [List.cons_append, ignoreChars_cons hspace hslash]

theorem At.inserted (h : At p p') : Inserted p p' := by
  rcases h.next with rfl | ⟨t, r, r', ht, hend, hr, rfl, rfl⟩
  · exact .rest
  · exact .token ht hend hr

theorem At.byteAt (h : At p p') : byteAt p' 0 = byteAt p 0 := by
  rcases h.next with rfl | ⟨t, r, r', ht, -, -, rfl, rfl⟩
  · rfl
  · obtain ⟨c, v, rfl, -⟩ := ht.head
    rfl

theorem At.mark (h : At p p') (hc : c ∈ marks) (hp : Dotjson.byteAt p 0 = c) :
    ∃ r r', p = c :: r ∧ p' = c :: r' ∧ Inserted r r' := by
  have hne : c ≠ 0 := (Start.mark hc).spec.2.2
  rcases h.next with rfl | ⟨t, r, r', ht, -, hr, rfl, rfl⟩
  · obtain ⟨r, rfl⟩ := byteAt_eq hp hne
    exact ⟨r, r, rfl, rfl, .rest⟩
  · obtain ⟨d, v, rfl, -⟩ := ht.head
    cases hp
    cases ht.of_mark hc
    exact ⟨r, r', rfl, rfl, hr⟩

/-! ## Lexemes -/

/-- A lexeme that is read from one text is read from the other, and fillers are left in the
rest. -/
def SameLexeme (p p' : Ptr) (l l' : Decoded) : Prop :=
  l.1 ≠ 0 → l' = l ∧ Inserted (p.drop l.1) (p'.drop l.1)

theorem sameLexeme_refl (p : Ptr) (l : Decoded) : SameLexeme p p l l := fun _ => ⟨rfl, .rest⟩

theorem sameLexeme_token (hr : Inserted r r') (hl : l = (t.length, x))
    (hl' : l' = (t.length, x)) : SameLexeme (t ++ r) (t ++ r') l l' := by
  intro _
  rw [hl, hl']
  refine ⟨rfl, ?_⟩
  rw [List.drop_left, List.drop_left]
  exact hr

theorem decodeString_skip (h : skip p = p) (h' : ignoreSpace p = p) :
    decodeString skip p = decodeString ignoreSpace p := by
  rw [decodeString, decodeString, h, h']

theorem decodeNumber_skip (h : skip p = p) (h' : ignoreSpace p = p) :
    decodeNumber skip p = decodeNumber ignoreSpace p := by
  rw [decodeNumber, decodeNumber, h, h']

theorem At.decodeString (h : At p p') (hq : Dotjson.byteAt p 0 = ch '"') :
    SameLexeme p p' (Dotjson.decodeString ignoreSpace p) (decodeString ignoreChars p') := by
  obtain ⟨hskip, hskips, rfl | ⟨t, r, r', ht, -, hr, rfl, rfl⟩⟩ := h
  · rw [decodeString_skip hskips hskip]
    exact sameLexeme_refl _ _
  · obtain ⟨c, v, rfl, -⟩ := ht.head
    obtain ⟨s, hs⟩ := ht.of_quote hq
    have hspace : ignoreSpace (c :: v ++ r') = c :: v ++ r' := by
      rw [show c = ch '"' from hq]
      exact ignoreSpace_cons (by decide) _
    rw [decodeString_skip hskips hspace]
    exact sameLexeme_token hr (decodeString_string hs r) (decodeString_string hs r')

theorem At.decodeNumber (h : At p p')
    (hd : isDigit (Dotjson.byteAt p 0) = true ∨ isSign (Dotjson.byteAt p 0) = true) :
    SameLexeme p p' (Dotjson.decodeNumber ignoreSpace p) (decodeNumber ignoreChars p') := by
  obtain ⟨hskip, hskips, rfl | ⟨t, r, r', ht, hend, hr, rfl, rfl⟩⟩ := h
  · rw [decodeNumber_skip hskips hskip]
    exact sameLexeme_refl _ _
  · obtain ⟨c, v, rfl, -⟩ := ht.head
    have hb := ht.of_digit hd
    have hspace : ignoreSpace (c :: v ++ r') = c :: v ++ r' :=
      ignoreSpace_cons (isSpace_of_number hd).1 _
    rw [decodeNumber_skip hskips hspace]
    exact sameLexeme_token hr (decodeNumber_number hb (hend hb))
      (decodeNumber_number hb (hr.numberEnd (hend hb)))

theorem decodeWord_word (h : b ∈ words) : ∃ x, ∀ q, decodeWord (b ++ q) = (b.length, x) := by
  simp only [words, List.mem_cons, List.not_mem_nil, or_false] at h
  rcases h with rfl | rfl | rfl
  · exact ⟨some .null, fun q => rfl⟩
  · exact ⟨some (.bool false), fun q => rfl⟩
  · exact ⟨some (.bool true), fun q => rfl⟩

theorem decodeWord_letter (h : (decodeWord p).1 ≠ 0) :
    byteAt p 0 = ch 'n' ∨ byteAt p 0 = ch 'f' ∨ byteAt p 0 = ch 't' := by
  rw [decodeWord] at h
  split_ifs at h with hn _ hf _ ht
  · exact .inl hn
  · exact absurd rfl h
  · exact .inr (.inl hf)
  · exact absurd rfl h
  · exact .inr (.inr ht)
  · exact absurd rfl h
  · exact absurd rfl h

theorem At.decodeWord (h : At p p') :
    SameLexeme p p' (Dotjson.decodeWord p) (Dotjson.decodeWord p') := by
  intro hne
  obtain ⟨-, -, rfl | ⟨t, r, r', ht, -, hr, rfl, rfl⟩⟩ := h
  · exact ⟨rfl, .rest⟩
  · obtain ⟨c, v, rfl, -⟩ := ht.head
    obtain ⟨x, hx⟩ := decodeWord_word (ht.of_letter (decodeWord_letter hne))
    exact sameLexeme_token hr (hx r) (hx r') hne

theorem At.decodeKey (h : At p p') (hq : Dotjson.byteAt p 0 = ch '"')
    (hk : Dotjson.decodeKey p = some (e, r)) :
    ∃ r', Dotjson.decodeKey p' = some (e, r') ∧ Inserted r r' ∧ r <:+ p ∧ r' <:+ p' := by
  obtain ⟨b, s, hs, rfl, rfl⟩ := decodeKey_sound hk
  obtain ⟨-, -, rfl | ⟨t, q, q', ht, -, hr, heq, rfl⟩⟩ := h
  · exact ⟨r, decodeKey_string hs r, .rest, List.suffix_append _ _, List.suffix_append _ _⟩
  · obtain ⟨c, v, rfl, -⟩ := ht.head
    rw [heq] at hq hk ⊢
    obtain ⟨s', hs'⟩ := ht.of_quote hq
    rw [decodeKey_string hs', Option.some.injEq, Prod.mk.injEq] at hk
    obtain ⟨hkey, rfl⟩ := hk
    rw [← hkey]
    exact ⟨q', decodeKey_string hs' q', hr, List.suffix_append _ _, List.suffix_append _ _⟩

end Misc.Dotjson
