import Misc.Jsoniter.Layout

namespace Misc.Jsoniter
set_option autoImplicit true

/-- The bytes that the loop of `readnumber` reads with these flags: digits, a fraction that
begins with a digit, and an exponent without a plus sign. -/
inductive Numeral : Bool → Bool → Bool → List UInt8 → Prop
  | done : Numeral false isfrac isexp []
  | digit : isdigit c = true → Numeral false isfrac isexp p → Numeral digit isfrac isexp (c :: p)
  | frac : Numeral true true isexp p → Numeral false false isexp (ch '.' :: p)
  | exp : c = ch 'e' ∨ c = ch 'E' → Numeral true true true p →
      Numeral false isfrac false (c :: p)
  | minus : c = ch 'e' ∨ c = ch 'E' → Numeral true true true p →
      Numeral false isfrac false (c :: ch '-' :: p)

/-- The bytes that the iterator reads as one token of a scalar kind. -/
inductive Lexeme : Kind → List UInt8 → Prop
  | null : Lexeme .null (literal .null)
  | true : Lexeme .true (literal .true)
  | false : Lexeme .false (literal .false)
  | string : scanString (ch '"') s = some s.length → Lexeme .string (ch '"' :: s)
  | number : Numeral true false false s → Lexeme .number s
  | minus : Numeral true false false s → Lexeme .number (ch '-' :: s)

theorem scanString_split (h : scanString prev s = some n) :
    ∃ p b, s = p ++ b ∧ n = p.length ∧ scanString prev p = some p.length := by
  induction s generalizing prev n with
  | nil => cases h
  | cons c cs ih =>
    rw [scanString] at h
    split_ifs at h with hc
    · cases h
      exact ⟨[c], cs, rfl, rfl, by rw [scanString, if_pos hc]; rfl⟩
    · obtain ⟨m, hm, rfl⟩ := Option.map_eq_some_iff.1 h
      obtain ⟨p, b, rfl, rfl, hp⟩ := ih hm
      refine ⟨c :: p, b, rfl, rfl, ?_⟩
      rw [scanString, if_neg hc, hp]
      rfl

theorem scanString_append (h : scanString prev p = some p.length) (b : List UInt8) :
    scanString prev (p ++ b) = some p.length := by
  induction p generalizing prev with
  | nil => cases h
  | cons c p ih =>
    rw [scanString] at h
    rw [List.cons_append, scanString]
    split_ifs at h ⊢ with hc
    · exact h
    · obtain ⟨m, hm, hlen⟩ := Option.map_eq_some_iff.1 h
      rw [ih (by rw [hm, Nat.succ.inj hlen])]
      rfl

theorem Scan.add_eq_found {r : Scan} (h : r.add k = .found n) :
    ∃ m, r = .found m ∧ n = m + k := by
  cases r with
  | found m =>
    cases h
    exact ⟨m, rfl, rfl⟩
  | eof | bad => cases h

theorem isExp_iff {c : UInt8} {isexp : Bool} :
    (!isexp && (c == ch 'e' || c == ch 'E')) = true ↔
      isexp = false ∧ (c = ch 'e' ∨ c = ch 'E') := by
  simp

theorem parsenum_split (h : parsenum digit isfrac isexp s = .found n) :
    ∃ p b, s = p ++ b ∧ n = p.length ∧ Numeral digit isfrac isexp p ∧
      ∀ c ∈ b.head?, isdigit c = false := by
  fun_induction parsenum digit isfrac isexp s generalizing n with
  | case1 => cases h
  | case2 digit isfrac isexp hd =>
    cases h
    rw [Bool.not_eq_true] at hd
    exact ⟨[], [], rfl, rfl, hd ▸ .done, by simp⟩
  | case3 digit isfrac isexp c cs hc ih =>
    obtain ⟨m, hm, rfl⟩ := Scan.add_eq_found h
    obtain ⟨p, b, rfl, rfl, hp, hb⟩ := ih hm
    exact ⟨c :: p, b, rfl, rfl, .digit hc hp, hb⟩
  | case4 => cases h
  | case5 digit isfrac isexp c cs hc hd hdot ih =>
    obtain ⟨m, hm, rfl⟩ := Scan.add_eq_found h
    obtain ⟨p, b, rfl, rfl, hp, hb⟩ := ih hm
    simp only [Bool.and_eq_true, Bool.not_eq_true', beq_iff_eq] at hdot
    obtain ⟨rfl, rfl⟩ := hdot
    rw [Bool.not_eq_true] at hd
    exact ⟨_ :: p, b, rfl, rfl, hd ▸ .frac hp, hb⟩
  | case6 => cases h
  | case7 digit isfrac isexp c hc hd hdot hexp cs ih =>
    obtain ⟨m, hm, rfl⟩ := Scan.add_eq_found h
    obtain ⟨p, b, rfl, rfl, hp, hb⟩ := ih hm
    obtain ⟨rfl, he⟩ := isExp_iff.1 hexp
    rw [Bool.not_eq_true] at hd
    exact ⟨c :: ch '-' :: p, b, rfl, rfl, hd ▸ .minus he hp, hb⟩
  | case8 digit isfrac isexp c hc hd hdot hexp c' cs hm hc' ih =>
    obtain ⟨m, hm, rfl⟩ := Scan.add_eq_found h
    obtain ⟨p, b, rfl, rfl, hp, hb⟩ := ih hm
    obtain ⟨rfl, he⟩ := isExp_iff.1 hexp
    rw [Bool.not_eq_true] at hd
    exact ⟨c :: c' :: p, b, rfl, rfl, hd ▸ .exp he (.digit hc' hp), hb⟩
  | case9 => cases h
  | case10 digit isfrac isexp c cs hc hd hdot hexp =>
    cases h
    rw [Bool.not_eq_true] at hd hc
    exact ⟨[], c :: cs, rfl, rfl, hd ▸ .done, by simpa using hc⟩

theorem Numeral.first (h : Numeral true isfrac isexp p) :
    ∃ c q, p = c :: q ∧ isdigit c = true ∧ Numeral false isfrac isexp q := by
  cases h with
  | digit hc hp => exact ⟨_, _, rfl, hc, hp⟩

/-- A number that the loop of `readnumber` has read ends in front of these bytes. -/
def Stops (b : List UInt8) : Prop :=
  ∀ c ∈ b.head?, isdigit c = false ∧ c ≠ ch '.' ∧ c ≠ ch 'e' ∧ c ≠ ch 'E'

theorem isExp_not_digit (h : c = ch 'e' ∨ c = ch 'E') : isdigit c = false ∧ c ≠ ch '.' := by
  rcases h with rfl | rfl <;> decide

theorem parsenum_digit (hc : isdigit c = true) (s : List UInt8) :
    parsenum digit isfrac isexp (c :: s) = (parsenum false isfrac isexp s).add 1 := by
  rw [parsenum.eq_def]
  exact if_pos hc

theorem parsenum_dot (s : List UInt8) :
    parsenum false false isexp (ch '.' :: s) = (parsenum true true isexp s).add 1 := by
  rw [parsenum.eq_def]
  rfl

theorem parsenum_exp (hc : c = ch 'e' ∨ c = ch 'E') (hd : isdigit d = true) (s : List UInt8) :
    parsenum false isfrac false (c :: d :: s) = (parsenum false true true s).add 2 := by
  obtain ⟨hn, hdot⟩ := isExp_not_digit hc
  have hm : d ≠ ch '-' := fun hm => absurd hd (by rw [hm]; decide)
  rw [parsenum.eq_def]
  dsimp only
  rw [if_neg (by simp [hn]), if_neg (by decide), if_neg (by simp [hdot, -ch]),
    if_pos (isExp_iff.2 ⟨rfl, hc⟩), if_neg hm, if_pos hd]

theorem parsenum_minus (hc : c = ch 'e' ∨ c = ch 'E') (s : List UInt8) :
    parsenum false isfrac false (c :: ch '-' :: s) = (parsenum true true true s).add 2 := by
  obtain ⟨hn, hdot⟩ := isExp_not_digit hc
  rw [parsenum.eq_def]
  dsimp only
  rw [if_neg (by simp [hn]), if_neg (by decide), if_neg (by simp [hdot, -ch]),
    if_pos (isExp_iff.2 ⟨rfl, hc⟩), if_pos rfl]

theorem parsenum_stop (hb : Stops b) : parsenum false isfrac isexp b = .found 0 := by
  cases b with
  | nil => rfl
  | cons c b =>
    obtain ⟨hc, hdot, he, hE⟩ := hb c rfl
    rw [parsenum.eq_def]
    dsimp only
    rw [if_neg (by simp [hc]), if_neg (by decide), if_neg (by simp [hdot, -ch]),
      if_neg (by simp [he, hE, -ch])]

theorem parsenum_append (h : Numeral digit isfrac isexp p) (hb : Stops b) :
    parsenum digit isfrac isexp (p ++ b) = .found p.length := by
  induction h with
  | done => exact parsenum_stop hb
  | digit hc _ ih =>
    rw [List.cons_append, parsenum_digit hc, ih]
    rfl
  | frac _ ih =>
    rw [List.cons_append, parsenum_dot, ih]
    rfl
  | exp he hp ih =>
    obtain ⟨d, q, rfl, hd, -⟩ := hp.first
    rw [List.cons_append, parsenum_digit hd] at ih
    obtain ⟨m, hm, hlen⟩ := Scan.add_eq_found ih
    rw [List.cons_append, List.cons_append, parsenum_exp he hd, hm, List.length_cons, hlen]
    rfl
  | minus he _ ih =>
    rw [List.cons_append, List.cons_append, parsenum_minus he, ih]
    rfl

theorem find_mismatch_eq_none {as bs : List UInt8} :
    (¬ bs.length < as.length ∧ ((as.zip bs).find? fun p => p.2 != p.1) = none) ↔
      ∃ b, bs = as ++ b := by
  induction as generalizing bs with
  | nil => simp
  | cons a as ih =>
    cases bs with
    | nil => simp
    | cons c cs =>
      simp only [List.length_cons, Nat.add_lt_add_iff_right, List.zip_cons_cons, List.find?_cons,
        List.cons_append, List.cons.injEq, exists_and_left, ← ih]
      by_cases h : c = a
      · simp [h]
      · have hne : (c != a) = true := by simpa using h
        simp [h, hne]

namespace Iter

variable {it it' : Iter} {t : Token}

@[simp] theorem peek_of_rest (h : it.rest = c :: b) : it.peek = c := by
  rw [peek, h]
  rfl

theorem rest_of_peek (h : it.peek = c) (hc : c ≠ 0) : ∃ b, it.rest = c :: b := by
  rw [peek] at h
  cases hr : it.rest with
  | nil =>
    rw [hr] at h
    exact absurd h.symm hc
  | cons d b =>
    rw [hr] at h
    exact ⟨b, by rw [← h]; rfl⟩

theorem rest_skip (h : it.rest = p ++ b) : (it.skip p.length).rest = b := by
  rw [skip, h, List.drop_left]

theorem part_of_rest (h : it.rest = p ++ b) (kind : Kind) (hn : n = p.length) :
    it.part kind n = (it.skip p.length, (kind, p)) := by
  rw [part, h, hn, List.take_left]

theorem readliteral_lexeme (h : it.rest = literal kind ++ b) :
    it.readliteral kind = (it.skip (literal kind).length, (kind, literal kind)) := by
  obtain ⟨hlen, hfind⟩ := find_mismatch_eq_none.2 ⟨b, h⟩
  rw [readliteral]
  rw [if_neg hlen, hfind]
  exact part_of_rest h kind rfl

theorem readstring_lexeme (h : it.rest = ch '"' :: (s ++ b))
    (hs : scanString (ch '"') s = some s.length) :
    it.readstring = (it.skip (ch '"' :: s).length, (.string, ch '"' :: s)) := by
  rw [readstring, peek_of_rest h, if_neg (by simp), h, List.tail_cons, scanString_append hs]
  exact part_of_rest h .string rfl

theorem readnumber_lexeme (h : it.rest = p ++ b) (hp : Lexeme .number p) (hb : Stops b) :
    it.readnumber = (it.skip p.length, (.number, p)) := by
  cases hp with
  | number hn =>
    obtain ⟨c, q, rfl, hc, -⟩ := hn.first
    have hm : c ≠ ch '-' := fun hm => absurd hc (by rw [hm]; decide)
    rw [readnumber, peek_of_rest h, if_neg hm]
    rw [h, List.drop_zero, parsenum_append hn hb]
    exact part_of_rest h .number rfl
  | @minus s hn =>
    rw [readnumber, peek_of_rest h, if_pos rfl]
    rw [h, List.cons_append, List.drop_one, List.tail_cons, parsenum_append hn hb]
    exact part_of_rest h .number rfl

theorem lexeme_number_first (hp : Lexeme .number p) :
    ∃ c q, p = c :: q ∧ (isdigit c = true ∨ c = ch '-') := by
  cases hp with
  | number hn =>
    obtain ⟨c, q, rfl, hc, -⟩ := hn.first
    exact ⟨c, q, rfl, .inl hc⟩
  | minus hn => exact ⟨_, _, rfl, .inr rfl⟩

theorem digit_or_minus_ne (h : isdigit c = true ∨ c = ch '-') :
    c ≠ ch 'n' ∧ c ≠ ch 't' ∧ c ≠ ch 'f' ∧ c ≠ ch '"' ∧ c ≠ ch '\x7b' ∧ c ≠ ch '[' := by
  refine ⟨?_, ?_, ?_, ?_, ?_, ?_⟩ <;> rintro rfl <;> revert h <;> decide

theorem readvalue_number (hr : it.rest = c :: r) (hc : isdigit c = true ∨ c = ch '-') :
    it.readvalue = it.readnumber := by
  obtain ⟨h₁, h₂, h₃, h₄, h₅, h₆⟩ := digit_or_minus_ne hc
  rw [readvalue, peek_of_rest hr]
  rw [if_neg h₁, if_neg h₂, if_neg h₃, if_neg h₄, if_neg h₅, if_neg h₆,
    if_pos (by simpa using hc)]

theorem readvalue_scalar (h : it.rest = p ++ b) (hp : Lexeme kind p)
    (hb : kind = .number → Stops b) : it.readvalue = (it.skip p.length, (kind, p)) := by
  cases hp with
  | null =>
    rw [readvalue, peek_of_rest h]
    exact readliteral_lexeme h
  | true =>
    rw [readvalue, peek_of_rest h]
    exact readliteral_lexeme h
  | false =>
    rw [readvalue, peek_of_rest h]
    exact readliteral_lexeme h
  | string hs =>
    rw [readvalue, peek_of_rest h]
    exact readstring_lexeme h hs
  | number hn =>
    have hp := Lexeme.number hn
    obtain ⟨c, q, rfl, hc⟩ := lexeme_number_first hp
    rw [readvalue_number h hc]
    exact readnumber_lexeme h hp (hb rfl)
  | minus hn =>
    rw [readvalue, peek_of_rest h]
    exact readnumber_lexeme h (.minus hn) (hb rfl)

/-- The token is what comes next in the data, and `b` follows it. -/
structure Scalar (it : Iter) (t : Token) (b : List UInt8) : Prop where
  rest : it.rest = t.2 ++ b
  lexeme : Lexeme t.1 t.2
  munch : t.1 = .number → ∀ c ∈ b.head?, isdigit c = false

theorem fail_valid {err : Err} (h : it.fail err = (it', t)) : t.1 = .invalid := by
  cases h
  rfl

theorem readliteral_eq (h : it.readliteral kind = (it', t)) (ht : t.1 ≠ .invalid)
    (hk : Lexeme kind (literal kind)) (hn : kind ≠ .number) :
    ∃ b, it.Scalar t b ∧ it' = it.skip t.2.length := by
  rw [readliteral] at h
  split_ifs at h with hlen
  · exact absurd (fail_valid h) ht
  · split at h
    · exact absurd (fail_valid h) ht
    · next hfind =>
      obtain ⟨b, hb⟩ := find_mismatch_eq_none.1 ⟨hlen, hfind⟩
      rw [part_of_rest hb kind rfl] at h
      cases h
      exact ⟨b, ⟨hb, hk, fun hc => absurd hc hn⟩, rfl⟩

theorem readstring_eq (h : it.readstring = (it', t)) (ht : t.1 ≠ .invalid) :
    ∃ b, it.Scalar t b ∧ t.1 = .string ∧ it' = it.skip t.2.length := by
  rw [readstring] at h
  split_ifs at h with hq
  · exact absurd (fail_valid h) ht
  · rw [ne_eq, not_not] at hq
    obtain ⟨cs, hcs⟩ := rest_of_peek hq (by decide)
    rw [hcs, List.tail_cons, hq] at h
    cases hscan : scanString (ch '"') cs with
    | none =>
      rw [hscan] at h
      exact absurd (fail_valid h) ht
    | some n =>
      obtain ⟨p, b, rfl, rfl, hp⟩ := scanString_split hscan
      have hrest : it.rest = (ch '"' :: p) ++ b := hcs
      rw [hscan] at h
      dsimp only at h
      rw [part_of_rest (n := p.length + 1) hrest .string rfl] at h
      cases h
      exact ⟨b, ⟨hrest, .string hp, fun hc => nomatch hc⟩, rfl, rfl⟩

theorem readnumber_eq (h : it.readnumber = (it', t)) (ht : t.1 ≠ .invalid) :
    ∃ b, it.Scalar t b ∧ it' = it.skip t.2.length := by
  rw [readnumber] at h
  split_ifs at h with hm
  · obtain ⟨cs, hcs⟩ := rest_of_peek hm (by decide)
    rw [hcs, List.drop_one, List.tail_cons] at h
    cases hscan : parsenum true false false cs with
    | eof | bad c =>
      rw [hscan] at h
      exact absurd (fail_valid h) ht
    | found n =>
      obtain ⟨p, b, rfl, rfl, hp, hb⟩ := parsenum_split hscan
      have hrest : it.rest = (ch '-' :: p) ++ b := hcs
      rw [hscan] at h
      dsimp only [Scan.add] at h
      rw [part_of_rest (n := p.length + 1) hrest .number rfl] at h
      cases h
      exact ⟨b, ⟨hrest, .minus hp, fun _ => hb⟩, rfl⟩
  · rw [List.drop_zero] at h
    cases hscan : parsenum true false false it.rest with
    | eof | bad c =>
      rw [hscan] at h
      exact absurd (fail_valid h) ht
    | found n =>
      obtain ⟨p, b, hrest, rfl, hp, hb⟩ := parsenum_split hscan
      rw [hscan] at h
      dsimp only [Scan.add, Nat.add_zero] at h
      rw [part_of_rest hrest .number rfl] at h
      cases h
      exact ⟨b, ⟨hrest, .number hp, fun _ => hb⟩, rfl⟩

theorem enter_eq (h : it.rest = c :: b) (kind : Kind) (cur : Nat) :
    it.enter kind cur = (⟨b, it.i + 1, cur, stack it.cur it.top, it.err⟩, (kind, [c])) := by
  rw [enter, part, skip]
  simp only [h, List.drop_succ_cons, List.drop_zero, List.take_succ_cons, List.take_zero]
  rfl

theorem close_eq (h : it.rest = c :: b) (kind : Kind) :
    it.close kind =
      (⟨b, it.i + 1, it.top.headD 0, it.top.tail, it.err⟩, (kind, [c])) := by
  cases htop : it.top with
  | nil => simp [close, htop, part, skip, h]
  | cons d top => simp [close, htop, part, skip, h]

theorem readvalue_eq (h : it.readvalue = (it', t)) (ht : t.1 ≠ .invalid) :
    (∃ b, it.Scalar t b ∧ it' = it.skip t.2.length) ∨
    (∃ b, it.rest = ch '\x7b' :: b ∧ t = objectToken ∧
      it' = ⟨b, it.i + 1, 3, stack it.cur it.top, it.err⟩) ∨
    (∃ b, it.rest = ch '[' :: b ∧ t = arrayToken ∧
      it' = ⟨b, it.i + 1, 1, stack it.cur it.top, it.err⟩) := by
  rw [readvalue] at h
  split_ifs at h with hn htr hf hq hobj harr hnum
  · exact .inl (readliteral_eq h ht .null nofun)
  · exact .inl (readliteral_eq h ht .true nofun)
  · exact .inl (readliteral_eq h ht .false nofun)
  · obtain ⟨b, hs, -, hskip⟩ := readstring_eq h ht
    exact .inl ⟨b, hs, hskip⟩
  · obtain ⟨b, hb⟩ := rest_of_peek hobj (by decide)
    rw [enter_eq hb] at h
    cases h
    exact .inr (.inl ⟨b, hb, rfl, rfl⟩)
  · obtain ⟨b, hb⟩ := rest_of_peek harr (by decide)
    rw [enter_eq hb] at h
    cases h
    exact .inr (.inr ⟨b, hb, rfl, rfl⟩)
  · exact .inl (readnumber_eq h ht)
  · exact absurd (fail_valid h) ht

theorem readvalue_object (h : it.rest = ch '\x7b' :: b) :
    it.readvalue = (⟨b, it.i + 1, 3, stack it.cur it.top, it.err⟩, objectToken) := by
  rw [readvalue, peek_of_rest h]
  exact enter_eq h .object 3

theorem readvalue_array (h : it.rest = ch '[' :: b) :
    it.readvalue = (⟨b, it.i + 1, 1, stack it.cur it.top, it.err⟩, arrayToken) := by
  rw [readvalue, peek_of_rest h]
  exact enter_eq h .array 1

end Iter

end Misc.Jsoniter
