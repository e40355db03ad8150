import Misc.Jsoniter.Completeness

namespace Misc.Jsoniter
set_option autoImplicit true

/-- `1*DIGIT`. -/
def Digits (b : List UInt8) : Prop := b ≠ [] ∧ ∀ c ∈ b, isdigit c = true

/-- `int = zero / ( digit1-9 *DIGIT )`. -/
def IntPart (b : List UInt8) : Prop := Digits b ∧ (b.head? = some (ch '0') → b = [ch '0'])

/-- `[ frac ]`, where `frac = decimal-point 1*DIGIT`. -/
def FracOpt (b : List UInt8) : Prop := b = [] ∨ ∃ d, Digits d ∧ b = ch '.' :: d

/-- `[ exp ]`, where `exp = e [ minus / plus ] 1*DIGIT`. -/
def ExpOpt (b : List UInt8) : Prop :=
  b = [] ∨ ∃ e s d, (e = ch 'e' ∨ e = ch 'E') ∧
    (s = [] ∨ s = [ch '-'] ∨ s = [ch '+']) ∧ Digits d ∧ b = e :: (s ++ d)

def hexdigit (c : UInt8) : Bool :=
  isdigit c || (ch 'a' ≤ c && c ≤ ch 'f') || (ch 'A' ≤ c && c ≤ ch 'F')

/-- `*char`: bytes from 0x20 on that are no quote and no backslash, and escapes. -/
inductive Chars : List UInt8 → Prop
  | nil : Chars []
  | unescaped : 0x20 ≤ c → c ≠ ch '"' → c ≠ ch '\\' → Chars b → Chars (c :: b)
  | escape : c ∈ [ch '"', ch '\\', ch '/', ch 'b', ch 'f', ch 'n', ch 'r', ch 't'] → Chars b →
      Chars (ch '\\' :: c :: b)
  | unicode : hexdigit c₁ = true → hexdigit c₂ = true → hexdigit c₃ = true → hexdigit c₄ = true →
      Chars b → Chars (ch '\\' :: ch 'u' :: c₁ :: c₂ :: c₃ :: c₄ :: b)

/-- The scalars of RFC 8259. -/
inductive Rfc : Kind → List UInt8 → Prop
  | null : Rfc .null (literal .null)
  | true : Rfc .true (literal .true)
  | false : Rfc .false (literal .false)
  | string : Chars b → Rfc .string (ch '"' :: (b ++ [ch '"']))
  | number : m = [] ∨ m = [ch '-'] → IntPart i → FracOpt f → ExpOpt e →
      Rfc .number (m ++ (i ++ (f ++ e)))

/-- `JSON-text = ws value ws`, with the tokens of the value. -/
def IsJson (data : List UInt8) (ts : List Token) : Prop :=
  ∃ w v w', Blank w ∧ Value Rfc v ts ∧ Blank w' ∧ data = w ++ (v ++ w')

/-- The iterator can read the tokens: no string ends with an escaped backslash, and no number has
a plus sign. -/
def Readable (ts : List Token) : Prop :=
  ∀ t ∈ ts, (t.1 = .string → ¬ [ch '\\', ch '"'] <:+ t.2) ∧ (t.1 = .number → ch '+' ∉ t.2)

instance (ts : List Token) : Decidable (Readable ts) :=
  inferInstanceAs (Decidable (∀ t ∈ ts, (t.1 = .string → ¬ [ch '\\', ch '"'] <:+ t.2) ∧
    (t.1 = .number → ch '+' ∉ t.2)))

theorem hexdigit_ne (h : hexdigit c = true) : c ≠ ch '"' := by
  rintro rfl
  revert h
  decide

theorem scanString_chars (h : Chars b) (hlast : b.getLast? ≠ some (ch '\\')) (prev : UInt8)
    (hprev : b = [] → prev ≠ ch '\\') :
    scanString prev (b ++ [ch '"']) = some (b.length + 1) := by
  have hstep {c d : UInt8} {q : List UInt8} (hc : ¬ (c = ch '"' ∧ d ≠ ch '\\')) :
      scanString d (c :: q) = (scanString c q).map (· + 1) := by
    rw [scanString, if_neg hc]
  have hcons {c : UInt8} {q : List UInt8} (hl : (c :: q).getLast? ≠ some (ch '\\')) :
      q.getLast? ≠ some (ch '\\') ∧ (q = [] → c ≠ ch '\\') := by
    cases q with
    | nil => exact ⟨by simp, fun _ hc => hl (by rw [hc]; rfl)⟩
    | cons d q =>
      rw [List.getLast?_cons_cons] at hl
      exact ⟨hl, by simp⟩
  induction h generalizing prev with
  | nil =>
    rw [List.nil_append, scanString, if_pos ⟨rfl, hprev rfl⟩]
    rfl
  | unescaped _ hq _ _ ih =>
    obtain ⟨hl, hp⟩ := hcons hlast
    rw [List.cons_append, hstep (fun h => hq h.1), ih hl _ hp]
    rfl
  | escape _ _ ih =>
    obtain ⟨hl, -⟩ := hcons hlast
    obtain ⟨hl, hp⟩ := hcons hl
    rw [List.cons_append, hstep (fun h => absurd h.1 (by decide)), List.cons_append,
      hstep (fun h => h.2 rfl), ih hl _ hp]
    rfl
  | unicode h₁ h₂ h₃ h₄ _ ih =>
    obtain ⟨hl, -⟩ := hcons hlast
    obtain ⟨hl, -⟩ := hcons hl
    obtain ⟨hl, -⟩ := hcons hl
    obtain ⟨hl, -⟩ := hcons hl
    obtain ⟨hl, -⟩ := hcons hl
    obtain ⟨hl, hp⟩ := hcons hl
    simp only [List.cons_append]
    rw [hstep (fun h => absurd h.1 (by decide)), hstep (fun h => absurd h.1 (by decide)),
      hstep (fun h => hexdigit_ne h₁ h.1), hstep (fun h => hexdigit_ne h₂ h.1),
      hstep (fun h => hexdigit_ne h₃ h.1), hstep (fun h => hexdigit_ne h₄ h.1), ih hl _ hp]
    rfl

/-- The quote that ends a string is not right behind a backslash. -/
theorem scanString_last (h : scanString prev s = some s.length) :
    ¬ [ch '\\', ch '"'] <:+ prev :: s := by
  induction s generalizing prev with
  | nil => cases h
  | cons c cs ih =>
    rw [scanString] at h
    split_ifs at h with hc
    · simp only [List.length_cons, Option.some.injEq] at h
      have hcs : cs = [] := List.eq_nil_of_length_eq_zero (by omega)
      subst hcs
      intro hsuf
      have heq := hsuf.eq_of_length rfl
      simp only [List.cons.injEq] at heq
      exact hc.2 heq.1.symm
    · obtain ⟨m, hm, hlen⟩ := Option.map_eq_some_iff.1 h
      have hm' : m = cs.length := Nat.succ.inj hlen
      subst hm'
      intro hsuf
      rcases List.suffix_cons_iff.1 hsuf with heq | hsuf
      · cases heq
        cases hm
      · exact ih hm hsuf

theorem numeral_digits (hd : ∀ c ∈ d, isdigit c = true) (h : Numeral false isfrac isexp p) :
    Numeral false isfrac isexp (d ++ p) := by
  induction d with
  | nil => exact h
  | cons c d ih =>
    obtain ⟨hc, hd⟩ := List.forall_mem_cons.1 hd
    exact .digit hc (ih hd)

theorem Digits.numeral (h : Digits d) (hp : Numeral false isfrac isexp p) :
    Numeral digit isfrac isexp (d ++ p) := by
  obtain ⟨hne, hd⟩ := h
  cases d with
  | nil => exact absurd rfl hne
  | cons c d =>
    obtain ⟨hc, hd⟩ := List.forall_mem_cons.1 hd
    exact .digit hc (numeral_digits hd hp)

theorem numeral_exp (h : ExpOpt e) (hplus : ch '+' ∉ e) : Numeral false isfrac false e := by
  obtain rfl | ⟨c, s, d, hc, hs, hd, rfl⟩ := h
  · exact .done
  · have hnum : Numeral true true true d := by
      have hall : Numeral true true true (d ++ []) := hd.numeral .done
      rwa [List.append_nil] at hall
    rcases hs with rfl | rfl | rfl
    · exact .exp hc hnum
    · exact .minus hc hnum
    · exact absurd (by simp) hplus

theorem numeral_frac (hf : FracOpt f) (he : ∀ isfrac, Numeral false isfrac false e) :
    Numeral false false false (f ++ e) := by
  obtain rfl | ⟨d, hd, rfl⟩ := hf
  · exact he _
  · exact .frac (hd.numeral (he _))

theorem lexeme_of_rfc (h : Rfc kind p)
    (hs : kind = .string → ¬ [ch '\\', ch '"'] <:+ p) (hn : kind = .number → ch '+' ∉ p) :
    Lexeme kind p := by
  cases h with
  | null => exact .null
  | true => exact .true
  | false => exact .false
  | @string b hb =>
    refine .string ?_
    rw [List.length_append, List.length_singleton]
    refine scanString_chars hb (fun hlast => hs rfl ?_) _ (fun _ => by decide)
    obtain ⟨q, rfl⟩ := List.getLast?_eq_some_iff.1 hlast
    exact ⟨ch '"' :: q, by simp⟩
  | @number m i f e hm hi hf he =>
    have hplus : ch '+' ∉ e := fun hmem => hn rfl <| List.mem_append_right _ <|
      List.mem_append_right _ <| List.mem_append_right _ hmem
    have hnum : Numeral true false false (i ++ (f ++ e)) :=
      hi.1.numeral (numeral_frac hf fun _ => numeral_exp he hplus)
    rcases hm with rfl | rfl
    · exact .number hnum
    · exact .minus hnum

theorem exp_ne_plus (h : c = ch 'e' ∨ c = ch 'E') : ch '+' ≠ c := by
  rcases h with rfl | rfl <;> decide

theorem plus_not_mem_numeral (h : Numeral digit isfrac isexp p) : ch '+' ∉ p := by
  induction h with
  | done => exact nofun
  | digit hc _ ih =>
    refine List.not_mem_cons_of_ne_of_not_mem ?_ ih
    rintro rfl
    revert hc
    decide
  | frac _ ih => exact List.not_mem_cons_of_ne_of_not_mem (by decide) ih
  | exp hc _ ih => exact List.not_mem_cons_of_ne_of_not_mem (exp_ne_plus hc) ih
  | minus hc _ ih =>
    exact List.not_mem_cons_of_ne_of_not_mem (exp_ne_plus hc)
      (List.not_mem_cons_of_ne_of_not_mem (by decide) ih)

theorem readable_lexeme (h : Lexeme kind p) :
    (kind = .string → ¬ [ch '\\', ch '"'] <:+ p) ∧ (kind = .number → ch '+' ∉ p) := by
  cases h with
  | null | true | false => exact ⟨nofun, nofun⟩
  | string hs => exact ⟨fun _ => scanString_last hs, nofun⟩
  | number hn => exact ⟨nofun, fun _ => plus_not_mem_numeral hn⟩
  | minus hn =>
    exact ⟨nofun, fun _ =>
      List.not_mem_cons_of_ne_of_not_mem (by decide) (plus_not_mem_numeral hn)⟩

theorem IsJson.text (h : IsJson data ts) (hr : Readable ts) : Text Lexeme Apart data ts := by
  obtain ⟨w, v, w', hw, hv, hw', rfl⟩ := h
  have hv' : Value Lexeme v ts :=
    hv.imp fun t ht hlex => lexeme_of_rfc hlex (hr t ht).1 (hr t ht).2
  have hfar : Apart w' := by
    intro c hc
    have hb := hw' c (List.mem_of_mem_head? hc)
    rcases iswhitespace_eq hb with rfl | rfl | rfl | rfl <;> rfl
  rw [← List.append_nil ts]
  exact .cons hw hv' (fun _ _ => hfar) (.nil hw')

theorem Readable.of_text (h : Text Lexeme Apart data ts) : Readable ts := by
  intro t ht
  constructor
  · intro hk
    exact (readable_lexeme (h.scalars t ht (by rw [hk]; rfl))).1 hk
  · intro hk
    exact (readable_lexeme (h.scalars t ht (by rw [hk]; rfl))).2 hk

/-- The iterator returns the tokens of a JSON text without an error exactly when it can read each
of them. -/
theorem tokens_json_iff (h : IsJson data ts) :
    (∃ it, Iter.tokens data = (ts, it) ∧ it.rest = [] ∧ it.err = none ∧
      it.cur = 0 ∧ it.top = []) ↔ Readable ts := by
  rw [← text_iff_tokens]
  exact ⟨.of_text, h.text⟩

theorem memberText_json : IsJson memberText memberTokens := by
  have hdigits (c : UInt8) (hc : isdigit c = true) : Digits [c] :=
    ⟨List.cons_ne_nil _ _, List.forall_mem_singleton.2 hc⟩
  have hkey : Rfc .string keyText :=
    .string (.unescaped (by decide) (by decide) (by decide) (.escape (by decide) .nil))
  have hnumber : Rfc .number numberText := by
    refine .number (.inr rfl) ⟨hdigits (ch '1') rfl, by decide⟩
      (.inr ⟨_, hdigits (ch '5') rfl, rfl⟩) ?_
    exact .inr ⟨ch 'e', [], _, .inl rfl, .inl rfl, hdigits (ch '2') rfl, rfl⟩
  have hspace : Blank [ch ' '] := List.forall_mem_singleton.2 rfl
  have hobject : Value Rfc _ _ := .emptyObject blank_nil
  have helements := ArrayEnd.more blank_nil blank_nil hobject (.close blank_nil)
  have hlist : Value Rfc _ _ := .array blank_nil (.scalar rfl hnumber) helements
  have hvalue : Value Rfc memberText memberTokens :=
    .object blank_nil (.mk hkey blank_nil hspace hlist) (.close blank_nil)
  exact ⟨[], _, [], blank_nil, hvalue, blank_nil, rfl⟩

theorem tokens_json_member :
    (∃ it, Iter.tokens memberText = (memberTokens, it) ∧ it.rest = [] ∧
      it.err = none ∧ it.cur = 0 ∧ it.top = []) ↔ Readable memberTokens :=
  tokens_json_iff memberText_json

/-- The string that is one backslash is not read to its end. -/
theorem tokens_json_backslash : ¬ ∀ data ts, IsJson data ts → ∃ it, Iter.tokens data = (ts, it) ∧
    it.rest = [] ∧ it.err = none ∧ it.cur = 0 ∧ it.top = [] := by
  intro h
  have hjson : IsJson [ch '"', ch '\\', ch '\\', ch '"']
      [(.string, [ch '"', ch '\\', ch '\\', ch '"'])] :=
    ⟨[], _, [], blank_nil, .scalar rfl (.string (.escape (by simp) .nil)), blank_nil, rfl⟩
  obtain ⟨it, hrun, -, -⟩ := h _ _ hjson
  have hnil : (Iter.tokens [ch '"', ch '\\', ch '\\', ch '"']).1 = [] := by decide
  rw [hrun] at hnil
  cases hnil

end Misc.Jsoniter
