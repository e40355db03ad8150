import Misc.Jsoniter.Soundness

namespace Misc.Jsoniter
set_option autoImplicit true

theorem Tail.top (h : Tail lex far st b ts) : ∀ c ∈ st, c = 2 ∨ c = 5 := by
  induction h with
  | text => exact nofun
  | array _ _ ih => exact List.forall_mem_cons.2 ⟨.inl rfl, ih⟩
  | object _ _ ih => exact List.forall_mem_cons.2 ⟨.inr rfl, ih⟩

theorem iswhitespace_eq (h : iswhitespace c = true) :
    c = ch ' ' ∨ c = ch '\n' ∨ c = ch '\r' ∨ c = ch '\t' := by
  simpa [iswhitespace, or_assoc] using h

/-- The first byte of a token is neither whitespace nor a byte that goes on with a number. -/
def First (c : UInt8) : Prop :=
  iswhitespace c = false ∧ c ≠ ch '.' ∧ c ≠ ch 'e' ∧ c ≠ ch 'E' ∧ c ≠ ch ']' ∧ c ≠ ch '\x7d'

theorem first_digit (h : isdigit c = true ∨ c = ch '-') : First c := by
  rcases h with h | rfl
  · have hw : iswhitespace c = false := by
      rw [Bool.eq_false_iff]
      intro hw
      rcases iswhitespace_eq hw with rfl | rfl | rfl | rfl <;> revert h <;> decide
    refine ⟨hw, ?_, ?_, ?_, ?_, ?_⟩ <;> rintro rfl <;> revert h <;> decide
  · exact ⟨rfl, by decide, by decide, by decide, by decide, by decide⟩

theorem lexeme_first (h : Lexeme kind p) : ∃ c q, p = c :: q ∧ First c := by
  cases h with
  | null | true | false | string =>
    exact ⟨_, _, rfl, rfl, by decide, by decide, by decide, by decide, by decide⟩
  | number hn =>
    obtain ⟨c, q, rfl, hc⟩ := Iter.lexeme_number_first (.number hn)
    exact ⟨c, q, rfl, first_digit hc⟩
  | minus hn => exact ⟨_, _, rfl, first_digit (.inr rfl)⟩

theorem value_first (h : Value Lexeme v ts) : ∃ c q, v = c :: q ∧ First c := by
  cases h with
  | scalar _ hp => exact lexeme_first hp
  | emptyArray | array | emptyObject | object =>
    exact ⟨_, _, rfl, rfl, by decide, by decide, by decide, by decide, by decide⟩

theorem stops_blank (hw : Blank w) (hb : Stops b) : Stops (w ++ b) := by
  cases w with
  | nil => exact hb
  | cons c w =>
    intro d hd
    cases hd
    have hc := hw c List.mem_cons_self
    rcases iswhitespace_eq hc with rfl | rfl | rfl | rfl <;> decide

theorem stops_cons (hc : isdigit c = false ∧ c ≠ ch '.' ∧ c ≠ ch 'e' ∧ c ≠ ch 'E')
    (b : List UInt8) : Stops (c :: b) := by
  intro d hd
  cases hd
  exact hc

theorem text_stops (h : Text Lexeme Apart b ts) (hb : Apart b) : Stops b := by
  cases h with
  | nil hw =>
    rw [← List.append_nil b]
    exact stops_blank hw (by simp [Stops])
  | @cons w v b' _ _ hw hv =>
    cases w with
    | nil =>
      obtain ⟨c, q, rfl, -, hdot, he, hE, -⟩ := value_first hv
      exact stops_cons ⟨hb c rfl, hdot, he, hE⟩ _
    | cons c w =>
      obtain ⟨d, q, rfl, -⟩ := value_first hv
      have hc := hw c List.mem_cons_self
      apply stops_cons
      rcases iswhitespace_eq hc with rfl | rfl | rfl | rfl <;> decide

theorem arrayEnd_stops (h : ArrayEnd Lexeme b ts) (b' : List UInt8) : Stops (b ++ b') := by
  cases h with
  | close hw | more hw =>
    simp only [List.append_assoc]
    exact stops_blank hw (stops_cons (by decide) _)

theorem objectEnd_stops (h : ObjectEnd Lexeme b ts) (b' : List UInt8) : Stops (b ++ b') := by
  cases h with
  | close hw | more hw =>
    simp only [List.append_assoc]
    exact stops_blank hw (stops_cons (by decide) _)

theorem tail_stops (h : Tail Lexeme Apart st b ts) (hb : st = [] → Apart b) : Stops b := by
  cases h with
  | text ht => exact text_stops ht (hb rfl)
  | array he => exact arrayEnd_stops he _
  | object he => exact objectEnd_stops he _

namespace Iter

variable {it : Iter}

/-- A call has returned the first of the tokens, and the text goes on with the others. -/
def Goes (it : Iter) (r : Iter × Token) (ts : List Token) : Prop :=
  ∃ us, ts = r.2 :: us ∧ r.2.1 ≠ .invalid ∧ r.1.err = it.err ∧
    Left Lexeme Apart r.1.cur r.1.top r.1.rest us ∧ r.1.rest.length < it.rest.length

theorem readvalue_goes (hr : it.rest = v ++ b) (hval : Valued it.cur it.top)
    (hv : Value Lexeme v ts) (hfar : it.cur = 0 → ∀ part, ts = [(.number, part)] → Apart b)
    (ht : Tail Lexeme Apart (stack it.cur it.top) b us) : it.Goes it.readvalue (ts ++ us) := by
  cases hv with
  | @scalar kind _ hk hp =>
    have hstop : kind = .number → Stops b := by
      rintro rfl
      apply tail_stops ht
      intro hst
      have hcur : it.cur = 0 := by
        by_contra hne
        rw [stack, if_neg hne] at hst
        cases hst
      exact hfar hcur _ rfl
    obtain ⟨c, q, rfl, -⟩ := lexeme_first hp
    rw [readvalue_scalar hr hp hstop]
    refine ⟨us, rfl, ?_, rfl, ?_, ?_⟩
    · rintro rfl
      cases hk
    · rw [rest_skip hr]
      exact (left_iff_tail hval).2 ht
    · rw [rest_skip hr, hr, List.length_append, List.length_cons]
      omega
  | emptyArray hw =>
    rw [List.cons_append, List.append_assoc] at hr
    rw [readvalue_array hr]
    exact ⟨_, rfl, by simp [arrayToken], rfl, .emptyArray hw ht, by simp [hr]⟩
  | array hw hv he =>
    simp only [List.cons_append, List.append_assoc] at hr
    rw [readvalue_array hr, List.cons_append, List.append_assoc]
    exact ⟨_, rfl, by simp [arrayToken], rfl, .array hw hv (.array he ht), by simp [hr]⟩
  | emptyObject hw =>
    rw [List.cons_append, List.append_assoc] at hr
    rw [readvalue_object hr]
    exact ⟨_, rfl, by simp [objectToken], rfl, .emptyObject hw ht, by simp [hr]⟩
  | object hw hm he =>
    simp only [List.cons_append, List.append_assoc] at hr
    rw [readvalue_object hr, List.cons_append, List.append_assoc]
    exact ⟨_, rfl, by simp [objectToken], rfl, .object hw hm (.object he ht), by simp [hr]⟩

theorem Goes.of_shorter {it₁ : Iter} {r : Iter × Token} (h : it₁.Goes r ts)
    (herr : it₁.err = it.err) (hlen : it₁.rest.length ≤ it.rest.length) : it.Goes r ts := by
  obtain ⟨us, hts, hinv, he, hl, hlt⟩ := h
  exact ⟨us, hts, hinv, he.trans herr, hl, Nat.lt_of_lt_of_le hlt hlen⟩

theorem readstring_goes (hr : it.rest = m ++ b) (hcur : it.cur = 4) (hm : Member Lexeme m ts)
    (ht : Tail Lexeme Apart (5 :: it.top) b us) : it.Goes it.readstring (ts ++ us) := by
  cases hm with
  | @mk k w w' v ts hk hw hw' hv =>
    cases hk with
    | @string s hs =>
      have hrest : it.rest = (ch '"' :: s) ++ (w ++ (ch ':' :: (w' ++ (v ++ b)))) := by
        rw [hr]
        simp only [List.cons_append, List.append_assoc]
      rw [readstring_lexeme hrest hs]
      refine ⟨ts ++ us, rfl, by simp, rfl, ?_, ?_⟩
      · rw [rest_skip hrest, skip, hcur]
        exact .colon hw hw' hv ht
      · rw [rest_skip hrest, hrest]
        simp only [List.length_append, List.length_cons]
        omega

theorem close_goes (hr : it.rest = c :: b) {kind : Kind} (hk : kind ≠ .invalid)
    (ht : Tail Lexeme Apart it.top b ts) : it.Goes (it.close kind) ((kind, [c]) :: ts) := by
  rw [close_eq hr]
  exact ⟨ts, rfl, hk, rfl, (left_close ht.top).2 ht, by simp [hr]⟩

theorem separated_goes {k : Iter → Iter × Token} (hr : it.rest = c :: (w ++ r)) (hw : Blank w)
    (hd : ∃ d q, r = d :: q ∧ iswhitespace d = false)
    (hk : Goes ⟨r, it.i + 1 + w.length, it.cur, it.top, it.err⟩
      (k ⟨r, it.i + 1 + w.length, it.cur, it.top, it.err⟩) ts) :
      it.Goes (it.separated k) ts := by
  obtain ⟨d, q, rfl, hd⟩ := hd
  rw [separated_solid hr hw hd]
  refine hk.of_shorter rfl ?_
  simp only [hr, List.length_cons, List.length_append]
  omega

theorem next_goes (hr : it.rest = w ++ r) (hw : Blank w) (herr : it.err = none)
    (hc : ∃ c q, r = c :: q ∧ iswhitespace c = false)
    (h : Goes ⟨r, it.i + w.length, it.cur, it.top, it.err⟩
      (state ⟨r, it.i + w.length, it.cur, it.top, it.err⟩) ts) : it.Goes it.next ts := by
  obtain ⟨c, q, rfl, hc⟩ := hc
  rw [next_at hr hw hc herr]
  refine h.of_shorter rfl ?_
  simp only [hr, List.length_append]
  omega

theorem cons_first (hc : iswhitespace c = false) (b : List UInt8) :
    ∃ d q, c :: b = d :: q ∧ iswhitespace d = false :=
  ⟨c, b, rfl, hc⟩

theorem append_first (h : ∃ c q, v = c :: q ∧ First c) (b : List UInt8) :
    ∃ c q, v ++ b = c :: q ∧ iswhitespace c = false := by
  obtain ⟨c, q, rfl, hc, -⟩ := h
  exact ⟨c, q ++ b, rfl, hc⟩

theorem member_first (h : Member Lexeme m ts) : ∃ c q, m = c :: q ∧ First c := by
  cases h with
  | mk hk =>
    obtain ⟨c, q, rfl, hc⟩ := lexeme_first hk
    exact ⟨c, _, rfl, hc⟩

theorem left_goes (hl : Left Lexeme Apart it.cur it.top it.rest ts) (herr : it.err = none) :
    (ts = [] ∧ it.cur = 0 ∧ it.top = [] ∧ Blank it.rest) ∨ it.Goes it.next ts := by
  obtain ⟨rest, i, cur, top, err⟩ := it
  simp only at hl herr ⊢
  cases hl with
  | start ht =>
    cases ht with
    | nil hw => exact .inl ⟨rfl, rfl, rfl, hw⟩
    | cons hw hv hfar ht =>
      right
      apply next_goes rfl hw herr (append_first (value_first hv) _)
      exact readvalue_goes rfl (.inl ⟨rfl, rfl⟩) hv (fun _ => hfar) (.text ht)
  | emptyArray hw ht =>
    right
    apply next_goes rfl hw herr (cons_first rfl _)
    exact close_goes rfl (by decide) ht
  | array hw hv ht =>
    right
    apply next_goes rfl hw herr (append_first (value_first hv) _)
    obtain ⟨d, q, rfl, -, -, -, -, hclose, -⟩ := value_first hv
    simp only [state]
    rw [if_neg (by exact hclose)]
    exact readvalue_goes rfl (.inr (.inl rfl)) hv (by simp) ht
  | element ht =>
    right
    cases ht with
    | array he ht =>
      cases he with
      | close hw =>
        apply next_goes (List.append_assoc ..) hw herr (cons_first rfl _)
        exact close_goes rfl (by decide) ht
      | more hw hw' hv he =>
        refine next_goes (List.append_assoc ..) hw herr ⟨_, _, rfl, rfl⟩ ?_
        simp only [List.cons_append, List.append_assoc]
        refine separated_goes rfl hw' (append_first (value_first hv) _) ?_
        exact readvalue_goes rfl (.inr (.inl rfl)) hv (by simp) (.array he ht)
  | emptyObject hw ht =>
    right
    apply next_goes rfl hw herr (cons_first rfl _)
    exact close_goes rfl (by decide) ht
  | object hw hm ht =>
    right
    apply next_goes rfl hw herr (append_first (member_first hm) _)
    obtain ⟨d, q, rfl, -, -, -, -, -, hclose⟩ := member_first hm
    simp only [state]
    rw [if_neg (by exact hclose)]
    exact readstring_goes rfl rfl hm ht
  | colon hw hw' hv ht =>
    right
    apply next_goes rfl hw herr (cons_first rfl _)
    apply separated_goes rfl hw' (append_first (value_first hv) _)
    exact readvalue_goes rfl (.inr (.inr rfl)) hv (by simp) ht
  | member ht =>
    right
    cases ht with
    | object he ht =>
      cases he with
      | close hw =>
        apply next_goes (List.append_assoc ..) hw herr (cons_first rfl _)
        exact close_goes rfl (by decide) ht
      | more hw hw' hm he =>
        refine next_goes (List.append_assoc ..) hw herr ⟨_, _, rfl, rfl⟩ ?_
        simp only [List.cons_append, List.append_assoc]
        refine separated_goes rfl hw' (append_first (member_first hm) _) ?_
        exact readstring_goes rfl rfl hm (.object he ht)

end Iter

/-- While the text goes on, the iterator returns its tokens, and ends behind it. -/
theorem collect_goes {it : Iter} (hl : Left Lexeme Apart it.cur it.top it.rest ts)
    (herr : it.err = none) (hn : it.rest.length ≤ n) :
    ∃ it', collect Iter.eof Iter.next n it = (ts, it') ∧ it'.rest = [] ∧ it'.err = none ∧
      it'.cur = 0 ∧ it'.top = [] := by
  induction n generalizing it ts with
  | zero =>
    have hrest := List.eq_nil_of_length_eq_zero (Nat.le_zero.1 hn)
    obtain ⟨rfl, hcur, htop, -⟩ | ⟨us, -, -, -, -, hlt⟩ := Iter.left_goes hl herr
    · exact ⟨it, rfl, hrest, herr, hcur, htop⟩
    · omega
  | succ n ih =>
    obtain ⟨rfl, hcur, htop, hb⟩ | ⟨us, rfl, hinv, he, hl', hlt⟩ := Iter.left_goes hl herr
    · rw [collect, Iter.next_blank hb herr hcur]
      split_ifs with heof
      · exact ⟨it, rfl, by simpa [Iter.eof] using heof, herr, hcur, htop⟩
      · exact ⟨_, rfl, rfl, rfl, rfl, htop⟩
    · have heof : ¬ it.eof = true := by
        rw [Iter.eof, List.isEmpty_iff]
        intro hnil
        rw [hnil] at hlt
        exact absurd hlt (Nat.not_lt_zero _)
      obtain ⟨it', hrun, hend⟩ := ih hl' (he.trans herr) (by omega)
      refine ⟨it', ?_, hend⟩
      rw [collect, if_neg heof]
      generalize it.next = r at hrun hinv
      obtain ⟨it₁, kind, part⟩ := r
      dsimp only at hrun hinv ⊢
      split
      · next h =>
        cases h
        exact absurd rfl hinv
      · next h =>
        cases h
        rw [hrun]

/-- The iterator reads the whole of the data, without an error and with no container open,
exactly when the data is a sequence of values of its lexemes; the tokens are those of the
values. -/
theorem text_iff_tokens : Text Lexeme Apart data ts ↔
    ∃ it, Iter.tokens data = (ts, it) ∧ it.rest = [] ∧ it.err = none ∧
      it.cur = 0 ∧ it.top = [] := by
  constructor
  · intro h
    have hl :
        Left Lexeme Apart (Iter.new data).cur (Iter.new data).top (Iter.new data).rest ts :=
      .start h
    exact collect_goes hl rfl (Nat.le_refl _)
  · rintro ⟨it, h, hrest, herr, hcur, -⟩
    exact tokens_text h hrest herr hcur

end Misc.Jsoniter
