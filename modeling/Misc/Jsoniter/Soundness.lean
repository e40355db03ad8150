import Misc.Jsoniter.Lexemes

namespace Misc.Jsoniter
set_option autoImplicit true

/-- What follows a number does not make it longer. -/
def Apart (b : List UInt8) : Prop := ∀ c ∈ b.head?, isdigit c = false

/-- No whitespace comes first. -/
def Solid (b : List UInt8) : Prop := ∀ c ∈ b.head?, iswhitespace c = false

theorem blank_nil : Blank [] := by simp [Blank]

theorem Blank.append (h : Blank w) (h' : Blank w') : Blank (w ++ w') := by
  intro c hc
  rcases List.mem_append.1 hc with hc | hc
  · exact h c hc
  · exact h' c hc

theorem takeWhile_blank (hw : Blank w) (hr : Solid r) : (w ++ r).takeWhile iswhitespace = w := by
  rw [List.takeWhile_append_of_pos hw]
  cases r with
  | nil => exact List.append_nil w
  | cons c r => rw [List.takeWhile_cons_of_neg (by simp [hr c rfl]), List.append_nil]

theorem exists_blank_solid (b : List UInt8) : ∃ w r, b = w ++ r ∧ Blank w ∧ Solid r := by
  induction b with
  | nil => exact ⟨[], [], rfl, blank_nil, by simp [Solid]⟩
  | cons c b ih =>
    by_cases hc : iswhitespace c = true
    · obtain ⟨w, r, rfl, hw, hr⟩ := ih
      exact ⟨c :: w, r, rfl, List.forall_mem_cons.2 ⟨hc, hw⟩, hr⟩
    · exact ⟨[], c :: b, rfl, blank_nil, by simpa [Solid] using hc⟩

theorem Left.blank (h : Left lex far cur top b ts) (hw : Blank w) :
    Left lex far cur top (w ++ b) ts := by
  cases h with
  | start h =>
    cases h with
    | nil hb => exact .start (.nil (hw.append hb))
    | cons hb hv hfar ht =>
      rw [← List.append_assoc]
      exact .start (.cons (hw.append hb) hv hfar ht)
  | emptyArray hb ht =>
    rw [← List.append_assoc]
    exact .emptyArray (hw.append hb) ht
  | array hb hv ht =>
    rw [← List.append_assoc]
    exact .array (hw.append hb) hv ht
  | element ht =>
    cases ht with
    | array he ht =>
      rw [← List.append_assoc]
      cases he with
      | close hb =>
        rw [← List.append_assoc]
        exact .element (.array (.close (hw.append hb)) ht)
      | more hb hb' hv he =>
        rw [← List.append_assoc w]
        exact .element (.array (.more (hw.append hb) hb' hv he) ht)
  | emptyObject hb ht =>
    rw [← List.append_assoc]
    exact .emptyObject (hw.append hb) ht
  | object hb hm ht =>
    rw [← List.append_assoc]
    exact .object (hw.append hb) hm ht
  | colon hb hb' hv ht =>
    rw [← List.append_assoc]
    exact .colon (hw.append hb) hb' hv ht
  | member ht =>
    cases ht with
    | object he ht =>
      rw [← List.append_assoc]
      cases he with
      | close hb =>
        rw [← List.append_assoc]
        exact .member (.object (.close (hw.append hb)) ht)
      | more hb hb' hm he =>
        rw [← List.append_assoc w]
        exact .member (.object (.more (hw.append hb) hb' hm he) ht)

theorem left_close (h : ∀ c ∈ top, c = 2 ∨ c = 5) :
    Left lex far (top.headD 0) top.tail b ts ↔ Tail lex far top b ts := by
  cases top with
  | nil => exact left_iff_tail (.inl ⟨rfl, rfl⟩)
  | cons c top =>
    have hc := h c List.mem_cons_self
    have hstack : stack c top = c :: top := by
      rw [stack, if_neg (by omega)]
    have hiff : Left lex far c top b ts ↔ Tail lex far (stack c top) b ts :=
      left_iff_tail (.inr hc)
    rwa [hstack] at hiff

theorem isScalar_of_lexeme (h : Lexeme kind p) : isScalar kind = true := by
  cases h <;> rfl

theorem stack_sane (h : Valued cur top) (htop : ∀ c ∈ top, c = 2 ∨ c = 5) :
    ∀ c ∈ stack cur top, c = 2 ∨ c = 5 := by
  obtain ⟨rfl, rfl⟩ | hcur := h
  · exact htop
  · rw [stack, if_neg (by omega)]
    exact List.forall_mem_cons.2 ⟨hcur, htop⟩

namespace Iter

variable {it it' : Iter} {t : Token}

/-- What every state of a run satisfies. -/
structure Sane (it : Iter) : Prop where
  cur_le : it.cur ≤ 5
  top_eq : it.cur = 0 → it.top = []
  top : ∀ c ∈ it.top, c = 2 ∨ c = 5

theorem skipwhitespace_solid (h : it.rest = w ++ (c :: r)) (hw : Blank w)
    (hc : iswhitespace c = false) :
    it.skipwhitespace = (it.skip w.length, false) := by
  rw [skipwhitespace, h, takeWhile_blank hw (by simpa [Solid] using hc)]
  simp [eof, skip, h]

theorem skipwhitespace_blank (h : Blank it.rest) :
    it.skipwhitespace =
      (⟨[], it.i + it.rest.length, it.cur, it.top, some .unexpectedEOF⟩, true) := by
  have htake : it.rest.takeWhile iswhitespace = it.rest := by
    have := takeWhile_blank h (r := []) (by simp [Solid])
    rwa [List.append_nil] at this
  rw [skipwhitespace, htake]
  simp [eof, skip]

theorem next_solid (h : it.rest = w ++ (c :: r)) (hw : Blank w) (hc : iswhitespace c = false)
    (herr : it.err = none) : it.next = (it.skip w.length).state := by
  rw [next, if_neg (by simp [herr]), skipwhitespace_solid h hw hc]

theorem next_at (hr : it.rest = w ++ (c :: r)) (hw : Blank w) (hc : iswhitespace c = false)
    (herr : it.err = none) :
    it.next = state ⟨c :: r, it.i + w.length, it.cur, it.top, it.err⟩ := by
  rw [next_solid hr hw hc herr]
  simp only [skip, hr, List.drop_left]

theorem separated_solid (hr : it.rest = c :: (w ++ (d :: r))) (hw : Blank w)
    (hd : iswhitespace d = false) (f : Iter → Iter × Token) :
    it.separated f = f ⟨d :: r, it.i + 1 + w.length, it.cur, it.top, it.err⟩ := by
  have hskip : (it.skip 1).rest = w ++ (d :: r) := by rw [skip, hr]; rfl
  have heq : (it.skip 1).skip w.length =
      ⟨d :: r, it.i + 1 + w.length, it.cur, it.top, it.err⟩ := by
    simp only [skip, hr, List.drop_succ_cons, List.drop_zero, List.drop_left]
  rw [separated, skipwhitespace_solid hskip hw hd, heq]

theorem next_blank (h : Blank it.rest) (herr : it.err = none) (hcur : it.cur = 0) :
    it.next = (⟨[], it.i + it.rest.length, 0, it.top, none⟩, (.invalid, [])) := by
  rw [next, if_neg (by simp [herr]), skipwhitespace_blank h]
  simp [hcur]

theorem next_eq (h : it.next = (it', t)) (ht : t.1 ≠ .invalid) :
    it.err = none ∧ ∃ w c r, it.rest = w ++ (c :: r) ∧ Blank w ∧ iswhitespace c = false ∧
      (it.skip w.length).state = (it', t) := by
  rw [next] at h
  split_ifs at h with herr
  · exact absurd (by cases h; rfl) ht
  · rw [Option.isSome_iff_ne_none, ne_eq, not_not] at herr
    refine ⟨herr, ?_⟩
    obtain ⟨w, r, hr, hw, hs⟩ := exists_blank_solid it.rest
    cases r with
    | nil =>
      rw [List.append_nil] at hr
      rw [skipwhitespace_blank (hr ▸ hw)] at h
      exact absurd (by cases h; rfl) ht
    | cons c r =>
      have hc := hs c rfl
      rw [skipwhitespace_solid hr hw hc] at h
      exact ⟨w, c, r, hr, hw, hc, h⟩

theorem readvalue_left (h : it.readvalue = (it', t)) (ht : t.1 ≠ .invalid)
    (hv : Valued it.cur it.top) (hl : Left Lexeme Apart it'.cur it'.top it'.rest ts) :
    ∃ v b us vs, it.rest = v ++ b ∧ t :: ts = us ++ vs ∧ Value Lexeme v us ∧
      Tail Lexeme Apart (stack it.cur it.top) b vs ∧
      (∀ part, us = [(.number, part)] → Apart b) := by
  obtain ⟨b, hs, rfl⟩ | ⟨b, hb, rfl, rfl⟩ | ⟨b, hb, rfl, rfl⟩ := readvalue_eq h ht
  · rw [rest_skip hs.rest] at hl
    refine ⟨t.2, b, [t], ts, hs.rest, rfl, ?_, (left_iff_tail hv).1 hl, ?_⟩
    · exact .scalar (isScalar_of_lexeme hs.lexeme) hs.lexeme
    · intro part hp
      cases hp
      exact hs.munch rfl
  · dsimp only at hl
    cases hl with
    | emptyObject hw htail =>
      refine ⟨_, _, [objectToken, closeObjectToken], _, ?_, rfl, .emptyObject hw, htail, nofun⟩
      rw [hb, List.cons_append, List.append_assoc]
      rfl
    | object hw hm htail =>
      cases htail with
      | object he htail =>
        refine ⟨_, _, _, _, ?_, ?_, .object hw hm he, htail, nofun⟩
        · simp only [hb, List.cons_append, List.append_assoc]
        · simp only [List.cons_append, List.append_assoc]
  · dsimp only at hl
    cases hl with
    | emptyArray hw htail =>
      refine ⟨_, _, [arrayToken, closeArrayToken], _, ?_, rfl, .emptyArray hw, htail, nofun⟩
      rw [hb, List.cons_append, List.append_assoc]
      rfl
    | array hw hv htail =>
      cases htail with
      | array he htail =>
        refine ⟨_, _, _, _, ?_, ?_, .array hw hv he, htail, nofun⟩
        · simp only [hb, List.cons_append, List.append_assoc]
        · simp only [List.cons_append, List.append_assoc]

theorem readstring_left (h : it.readstring = (it', t)) (ht : t.1 ≠ .invalid) (hcur : it.cur = 4)
    (hl : Left Lexeme Apart it'.cur it'.top it'.rest ts) :
    ∃ m b us vs, it.rest = m ++ b ∧ t :: ts = us ++ vs ∧ Member Lexeme m us ∧
      Tail Lexeme Apart (5 :: it.top) b vs := by
  obtain ⟨b, hs, hk, rfl⟩ := readstring_eq h ht
  rw [rest_skip hs.rest] at hl
  obtain ⟨kind, part⟩ := t
  have hrest := hs.rest
  have hlex := hs.lexeme
  simp only [skip, hcur] at hl hk hrest hlex
  subst kind
  cases hl with
  | colon hw hw' hv htail =>
    refine ⟨_, _, _, _, ?_, ?_, .mk hlex hw hw' hv, htail⟩
    · simp only [hrest, List.cons_append, List.append_assoc]
    · simp only [List.cons_append]

theorem separated_eq {k : Iter → Iter × Token} (h : it.separated k = (it', t))
    (ht : t.1 ≠ .invalid) (hr : it.rest = c :: r) :
    ∃ w d r', r = w ++ (d :: r') ∧ Blank w ∧ iswhitespace d = false ∧
      k ⟨d :: r', it.i + 1 + w.length, it.cur, it.top, it.err⟩ = (it', t) := by
  obtain ⟨w, r', hr', hw, hs⟩ := exists_blank_solid r
  have hskip : (it.skip 1).rest = r := by rw [skip, hr]; rfl
  cases r' with
  | nil =>
    rw [List.append_nil] at hr'
    rw [separated, skipwhitespace_blank (by rw [hskip, hr']; exact hw)] at h
    exact absurd (by cases h; rfl) ht
  | cons d r' =>
    have hd := hs d rfl
    rw [hr'] at hr
    rw [separated_solid hr hw hd] at h
    exact ⟨w, d, r', hr', hw, hd, h⟩

theorem Sane.valued (h : it.Sane) (hcur : it.cur = 0 ∨ it.cur = 2 ∨ it.cur = 5) :
    Valued it.cur it.top := by
  rcases hcur with hcur | hcur
  · exact .inl ⟨hcur, h.top_eq hcur⟩
  · exact .inr hcur

theorem state_left_close (h : Iter.close it kind = (it', t)) (hr : it.rest = c :: b)
    (htop : ∀ c ∈ it.top, c = 2 ∨ c = 5) (hl : Left Lexeme Apart it'.cur it'.top it'.rest ts) :
    t = (kind, [c]) ∧ Tail Lexeme Apart it.top b ts := by
  rw [close_eq hr] at h
  cases h
  exact ⟨rfl, (left_close htop).1 hl⟩

/-- If the text goes on behind the token that the state machine returns, that token is what it
has next. -/
theorem state_left (h : it.state = (it', t)) (ht : t.1 ≠ .invalid) (hs : it.Sane)
    (hl : Left Lexeme Apart it'.cur it'.top it'.rest ts) :
    Left Lexeme Apart it.cur it.top it.rest (t :: ts) := by
  obtain ⟨rest, i, cur, top, err⟩ := it
  have hle := hs.cur_le
  simp only at hle
  match cur, hle with
  | 0, _ =>
    obtain ⟨v, b, us, vs, hrest, hts, hval, htail, hfar⟩ :=
      readvalue_left h ht (hs.valued (.inl rfl)) hl
    have htop := hs.top_eq rfl
    simp only at hrest htop htail ⊢
    subst htop
    rw [hrest, hts]
    cases htail with
    | text htext => exact .start (.cons blank_nil hval hfar htext)
  | 1, _ =>
    simp only [state] at h
    split_ifs at h with hclose
    · obtain ⟨b, hb⟩ := rest_of_peek hclose (by decide)
      obtain ⟨rfl, htail⟩ := state_left_close h hb hs.top hl
      simp only at hb ⊢
      rw [hb]
      exact .emptyArray blank_nil htail
    · obtain ⟨v, b, us, vs, hrest, hts, hval, htail, -⟩ :=
        readvalue_left h ht (.inr (.inl rfl)) hl
      simp only at hrest ⊢
      rw [hrest, hts]
      exact .array blank_nil hval htail
  | 2, _ =>
    simp only [state] at h
    split_ifs at h with hsep hclose
    · obtain ⟨b, hb⟩ := rest_of_peek hsep (by decide)
      obtain ⟨w, d, r, hr, hw, hd, hk⟩ := separated_eq h ht hb
      obtain ⟨v, b', us, vs, hrest, hts, hval, htail, -⟩ :=
        readvalue_left hk ht (.inr (.inl rfl)) hl
      simp only at hb hrest ⊢
      rw [hb, hr, hrest, hts]
      cases htail with
      | array he htail =>
        have hall := Tail.array (ArrayEnd.more blank_nil hw hval he) htail
        simp only [List.nil_append, List.cons_append, List.append_assoc] at hall
        exact .element hall
    · obtain ⟨b, hb⟩ := rest_of_peek hclose (by decide)
      obtain ⟨rfl, htail⟩ := state_left_close h hb hs.top hl
      simp only at hb ⊢
      rw [hb]
      exact .element (.array (.close blank_nil) htail)
    · exact absurd (fail_valid h) ht
  | 3, _ =>
    simp only [state] at h
    split_ifs at h with hclose
    · obtain ⟨b, hb⟩ := rest_of_peek hclose (by decide)
      obtain ⟨rfl, htail⟩ := state_left_close h hb hs.top hl
      simp only at hb ⊢
      rw [hb]
      exact .emptyObject blank_nil htail
    · obtain ⟨m, b, us, vs, hrest, hts, hm, htail⟩ := readstring_left h ht rfl hl
      simp only at hrest ⊢
      rw [hrest, hts]
      exact .object blank_nil hm htail
  | 4, _ =>
    simp only [state] at h
    split_ifs at h with hsep
    · obtain ⟨b, hb⟩ := rest_of_peek hsep (by decide)
      obtain ⟨w, d, r, hr, hw, hd, hk⟩ := separated_eq h ht hb
      obtain ⟨v, b', us, vs, hrest, hts, hval, htail, -⟩ :=
        readvalue_left hk ht (.inr (.inr rfl)) hl
      simp only at hb hrest ⊢
      rw [hb, hr, hrest, hts]
      exact .colon blank_nil hw hval htail
    · exact absurd (fail_valid h) ht
  | 5, _ =>
    simp only [state] at h
    split_ifs at h with hsep hclose
    · obtain ⟨b, hb⟩ := rest_of_peek hsep (by decide)
      obtain ⟨w, d, r, hr, hw, hd, hk⟩ := separated_eq h ht hb
      obtain ⟨m, b', us, vs, hrest, hts, hm, htail⟩ := readstring_left hk ht rfl hl
      simp only at hb hrest ⊢
      rw [hb, hr, hrest, hts]
      cases htail with
      | object he htail =>
        have hall := Tail.object (ObjectEnd.more blank_nil hw hm he) htail
        simp only [List.nil_append, List.cons_append, List.append_assoc] at hall
        exact .member hall
    · obtain ⟨b, hb⟩ := rest_of_peek hclose (by decide)
      obtain ⟨rfl, htail⟩ := state_left_close h hb hs.top hl
      simp only at hb ⊢
      rw [hb]
      exact .member (.object (.close blank_nil) htail)
    · exact absurd (fail_valid h) ht

theorem sane_of {k n : Nat} (hn : n ≤ 5) (h : n ≠ 0) (htop : ∀ c ∈ st, c = 2 ∨ c = 5) :
    Sane ⟨b, k, n, st, e⟩ :=
  ⟨hn, fun h' => absurd h' h, htop⟩

theorem readvalue_sane (h : it.readvalue = (it', t)) (ht : t.1 ≠ .invalid)
    (hv : Valued it.cur it.top) (hs : it.Sane) : it'.Sane := by
  obtain ⟨b, -, rfl⟩ | ⟨b, -, -, rfl⟩ | ⟨b, -, -, rfl⟩ := readvalue_eq h ht
  · exact ⟨hs.cur_le, hs.top_eq, hs.top⟩
  · exact sane_of (by decide) (by decide) (stack_sane hv hs.top)
  · exact sane_of (by decide) (by decide) (stack_sane hv hs.top)

theorem close_sane (h : it.close kind = (it', t)) (hs : it.Sane) : it'.Sane := by
  rw [close] at h
  split at h
  · next c top htop =>
    cases h
    have hall := hs.top
    rw [htop] at hall
    have hc := hall c List.mem_cons_self
    refine ⟨?_, ?_, fun d hd => hall d (List.mem_cons_of_mem _ hd)⟩
    · simp only [skip]
      omega
    · simp only [skip]
      omega
  · next htop =>
    cases h
    exact ⟨Nat.zero_le _, fun _ => htop, hs.top⟩

theorem readstring_sane (h : it.readstring = (it', t)) (ht : t.1 ≠ .invalid) (hs : it.Sane) :
    it'.Sane := by
  obtain ⟨b, -, -, rfl⟩ := readstring_eq h ht
  exact ⟨hs.cur_le, hs.top_eq, hs.top⟩

theorem state_sane (h : it.state = (it', t)) (ht : t.1 ≠ .invalid) (hs : it.Sane) :
    it'.Sane := by
  obtain ⟨rest, i, cur, top, err⟩ := it
  have hle := hs.cur_le
  simp only at hle
  match cur, hle with
  | 0, _ => exact readvalue_sane h ht (hs.valued (.inl rfl)) hs
  | 1, _ =>
    simp only [state] at h
    split_ifs at h
    · exact close_sane h hs
    · exact readvalue_sane h ht (.inr (.inl rfl)) (sane_of (by decide) (by decide) hs.top)
  | 2, _ =>
    simp only [state] at h
    split_ifs at h with hsep
    · obtain ⟨b, hb⟩ := rest_of_peek hsep (by decide)
      obtain ⟨w, d, r, -, -, -, hk⟩ := separated_eq h ht hb
      exact readvalue_sane hk ht (.inr (.inl rfl))
        (sane_of (n := 2) (by decide) (by decide) hs.top)
    · exact close_sane h hs
    · exact absurd (fail_valid h) ht
  | 3, _ =>
    simp only [state] at h
    split_ifs at h
    · exact close_sane h hs
    · exact readstring_sane h ht (sane_of (by decide) (by decide) hs.top)
  | 4, _ =>
    simp only [state] at h
    split_ifs at h with hsep
    · obtain ⟨b, hb⟩ := rest_of_peek hsep (by decide)
      obtain ⟨w, d, r, -, -, -, hk⟩ := separated_eq h ht hb
      exact readvalue_sane hk ht (.inr (.inr rfl)) (sane_of (by decide) (by decide) hs.top)
    · exact absurd (fail_valid h) ht
  | 5, _ =>
    simp only [state] at h
    split_ifs at h with hsep
    · obtain ⟨b, hb⟩ := rest_of_peek hsep (by decide)
      obtain ⟨w, d, r, -, -, -, hk⟩ := separated_eq h ht hb
      exact readstring_sane hk ht (sane_of (by decide) (by decide) hs.top)
    · exact close_sane h hs
    · exact absurd (fail_valid h) ht

theorem fail_err {err : Err} (h : it.fail err = (it', t)) : it'.err.isSome := by
  cases h
  rfl

theorem part_valid {kind : Kind} {n : Nat} (h : it.part kind n = (it', t))
    (hk : kind ≠ .invalid) : t.1 ≠ .invalid := by
  cases h
  exact hk

theorem readliteral_err (h : it.readliteral kind = (it', t)) (ht : t.1 = .invalid)
    (hk : kind ≠ .invalid) : it'.err.isSome := by
  rw [readliteral] at h
  split_ifs at h
  · exact fail_err h
  · split at h
    · exact fail_err h
    · exact absurd ht (part_valid h hk)

theorem readstring_err (h : it.readstring = (it', t)) (ht : t.1 = .invalid) :
    it'.err.isSome := by
  rw [readstring] at h
  split_ifs at h
  · exact fail_err h
  · split at h
    · exact absurd ht (part_valid h (by decide))
    · exact fail_err h

theorem readnumber_err (h : it.readnumber = (it', t)) (ht : t.1 = .invalid) :
    it'.err.isSome := by
  rw [readnumber] at h
  split at h
  · exact absurd ht (part_valid h (by decide))
  · exact fail_err h
  · exact fail_err h

theorem readvalue_err (h : it.readvalue = (it', t)) (ht : t.1 = .invalid) : it'.err.isSome := by
  rw [readvalue] at h
  split_ifs at h
  · exact readliteral_err h ht (by decide)
  · exact readliteral_err h ht (by decide)
  · exact readliteral_err h ht (by decide)
  · exact readstring_err h ht
  · exact absurd ht (part_valid h (by decide))
  · exact absurd ht (part_valid h (by decide))
  · exact readnumber_err h ht
  · exact fail_err h

theorem close_valid {kind : Kind} (h : it.close kind = (it', t)) (hk : kind ≠ .invalid) :
    t.1 ≠ .invalid := by
  rw [close] at h
  split at h <;> exact part_valid h hk

theorem separated_err {k : Iter → Iter × Token} (h : it.separated k = (it', t))
    (ht : t.1 = .invalid) (hk : ∀ it, k it = (it', t) → it'.err.isSome) : it'.err.isSome := by
  rw [separated] at h
  split at h
  · next it₁ hskip =>
    cases h
    rw [skipwhitespace] at hskip
    split_ifs at hskip
    · cases hskip
      rfl
    · cases hskip
  · exact hk _ h

theorem state_err (h : it.state = (it', t)) (ht : t.1 = .invalid) : it'.err.isSome := by
  rw [state] at h
  split at h
  · split_ifs at h
    · exact absurd ht (close_valid h nofun)
    · exact readvalue_err h ht
  · split_ifs at h
    · exact separated_err h ht fun _ h => readvalue_err h ht
    · exact absurd ht (close_valid h nofun)
    · exact fail_err h
  · split_ifs at h
    · exact absurd ht (close_valid h nofun)
    · exact readstring_err h ht
  · split_ifs at h
    · exact separated_err h ht fun _ h => readvalue_err h ht
    · exact fail_err h
  · split_ifs at h
    · exact separated_err h ht fun _ h => readstring_err h ht
    · exact absurd ht (close_valid h nofun)
    · exact fail_err h
  · exact readvalue_err h ht

theorem next_invalid (h : it.next = (it', t)) (ht : t.1 = .invalid) (herr : it'.err = none) :
    it.err = none ∧ it.cur = 0 ∧ Blank it.rest := by
  rw [next] at h
  split_ifs at h with he
  · cases h
    rw [herr] at he
    cases he
  · rw [Option.isSome_iff_ne_none, ne_eq, not_not] at he
    refine ⟨he, ?_⟩
    obtain ⟨w, r, hr, hw, hs⟩ := exists_blank_solid it.rest
    cases r with
    | nil =>
      rw [List.append_nil] at hr
      rw [skipwhitespace_blank (hr ▸ hw)] at h
      dsimp only at h
      split_ifs at h with hcur
      · exact ⟨hcur, hr ▸ hw⟩
      · cases h
        cases herr
    | cons c r =>
      rw [skipwhitespace_solid hr hw (hs c rfl)] at h
      have := state_err h ht
      rw [herr] at this
      cases this

theorem next_sane (h : it.next = (it', t)) (ht : t.1 ≠ .invalid) (hs : it.Sane) : it'.Sane := by
  obtain ⟨-, w, -, -, -, -, -, hstate⟩ := next_eq h ht
  exact state_sane hstate ht ⟨hs.cur_le, hs.top_eq, hs.top⟩

/-- If the text goes on behind a token, the token is what it has next. -/
theorem next_left (h : it.next = (it', t)) (ht : t.1 ≠ .invalid) (hs : it.Sane)
    (hl : Left Lexeme Apart it'.cur it'.top it'.rest ts) :
    Left Lexeme Apart it.cur it.top it.rest (t :: ts) := by
  obtain ⟨-, w, c, r, hr, hw, -, hstate⟩ := next_eq h ht
  have hl' := state_left hstate ht ⟨hs.cur_le, hs.top_eq, hs.top⟩ hl
  rw [rest_skip hr] at hl'
  rw [hr]
  exact hl'.blank hw

end Iter

/-- A run that reads all of the data without an error has read it as the grammar says. -/
theorem collect_left {it it' : Iter} (h : collect Iter.eof Iter.next n it = (ts, it'))
    (hs : it.Sane) (hrest : it'.rest = []) (herr : it'.err = none) (hcur : it'.cur = 0) :
    Left Lexeme Apart it.cur it.top it.rest ts := by
  induction n generalizing it ts with
  | zero =>
    cases h
    rw [hrest, hcur, hs.top_eq hcur]
    exact .start (.nil blank_nil)
  | succ n ih =>
    rw [collect] at h
    split_ifs at h
    · cases h
      rw [hrest, hcur, hs.top_eq hcur]
      exact .start (.nil blank_nil)
    · split at h
      · next it₁ part hnext =>
        cases h
        obtain ⟨-, hc, hb⟩ := Iter.next_invalid hnext rfl herr
        rw [hc, hs.top_eq hc]
        exact .start (.nil hb)
      · next it₁ t hinv hnext =>
        have ht : t.1 ≠ .invalid := fun hk => hinv t.2 (by rw [← hk])
        simp only [Prod.mk.injEq] at h
        obtain ⟨rfl, hit⟩ := h
        have hl := ih (Prod.ext rfl hit) (Iter.next_sane hnext ht hs)
        exact Iter.next_left hnext ht hs hl

theorem sane_new (data : List UInt8) : (Iter.new data).Sane :=
  ⟨Nat.zero_le _, fun _ => rfl, nofun⟩

/-- When the iterator comes to the end of the data between values and without an error, the
tokens that it has returned are those of a sequence of values, and the data is these values'
bytes. -/
theorem tokens_text (h : Iter.tokens data = (ts, it)) (hrest : it.rest = [])
    (herr : it.err = none)
    (hcur : it.cur = 0) : Text Lexeme Apart data ts := by
  have hl := collect_left h (sane_new data) hrest herr hcur
  cases hl with
  | start ht => exact ht

def keyText : List UInt8 := [ch '"', ch 'a', ch '\\', ch 'n', ch '"']
def numberText : List UInt8 := [ch '-', ch '1', ch '.', ch '5', ch 'e', ch '2']

def memberText : List UInt8 :=
  ch '\x7b' :: (keyText ++ [ch ':', ch ' ', ch '['] ++ numberText ++
    [ch ',', ch '\x7b', ch '\x7d', ch ']', ch '\x7d'])

def memberTokens : List Token :=
  [objectToken, (.string, keyText), arrayToken, (.number, numberText),
    objectToken, closeObjectToken, closeArrayToken, closeObjectToken]

theorem tokens_member : Iter.tokens memberText = (memberTokens, ⟨[], 20, 0, [], none⟩) := rfl

theorem tokens_text_member : Text Lexeme Apart memberText memberTokens :=
  tokens_text tokens_member rfl rfl rfl

end Misc.Jsoniter
