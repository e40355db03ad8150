import Misc.Jsoniter.IterFast
import Misc.Jsoniter.Unescape

namespace Misc.Jsoniter
set_option autoImplicit true

namespace Iter

variable {it it' : Iter} {t : Token} {p : List UInt8}

theorem readvalue_string (h : it.readvalue = (it', (.string, p))) : Lexeme .string p := by
  obtain ⟨b, hs, -⟩ | ⟨b, -, ht, -⟩ | ⟨b, -, ht, -⟩ := readvalue_eq h nofun
  · exact hs.lexeme
  · cases ht
  · cases ht

theorem readstring_string (h : it.readstring = (it', (.string, p))) : Lexeme .string p := by
  obtain ⟨b, hs, -⟩ := readstring_eq h nofun
  exact hs.lexeme

theorem close_kind {kind : Kind} (h : it.close kind = (it', t)) : t.1 = kind := by
  rw [close] at h
  split at h <;> (cases h; rfl)

theorem separated_string {k : Iter → Iter × Token} (h : it.separated k = (it', (.string, p)))
    (hk : ∀ it, k it = (it', (.string, p)) → Lexeme .string p) : Lexeme .string p := by
  rw [separated] at h
  split at h
  · cases h
  · exact hk _ h

theorem next_string (h : it.next = (it', (.string, p))) : Lexeme .string p := by
  obtain ⟨-, w, c, r, -, -, -, h⟩ := next_eq h (by simp)
  rw [state] at h
  split at h
  · split_ifs at h
    · cases close_kind h
    · exact readvalue_string h
  · split_ifs at h
    · exact separated_string h fun _ h => readvalue_string h
    · cases close_kind h
    · cases fail_valid h
  · split_ifs at h
    · cases close_kind h
    · exact readstring_string h
  · split_ifs at h
    · exact separated_string h fun _ h => readvalue_string h
    · cases fail_valid h
  · split_ifs at h
    · exact separated_string h fun _ h => readstring_string h
    · cases close_kind h
    · cases fail_valid h
  · exact readvalue_string h

end Iter

namespace IterFast

variable {it it' : IterFast} {t : Token} {p : List UInt8}

theorem part_kind {kind : Kind} {n : Nat} (h : it.part kind n = (it', t)) : t.1 = kind := by
  cases h
  rfl

theorem readliteral_kind {kind : Kind} {n : Nat} (h : it.readliteral kind n = (it', t)) :
    t.1 = kind ∨ t.1 = .invalid := by
  rw [readliteral] at h
  split_ifs at h
  · cases h
    exact .inr rfl
  · exact .inl (part_kind h)

theorem readstring_string (hr : it.rest = ch '"' :: b)
    (h : it.readstring = (it', (.string, p))) : Lexeme .string p := by
  rw [readstring, hr] at h
  dsimp only [List.headD_cons, List.tail_cons] at h
  split at h
  · next n hn =>
    obtain ⟨q, b, rfl, rfl, hq⟩ := scanString_split hn
    rw [part, hr] at h
    cases h
    rw [List.take_succ_cons, List.take_left]
    exact .string hq
  · cases h

theorem next_string (h : it.next = (it', (.string, p))) : Lexeme .string p := by
  rw [next] at h
  split at h
  · cases h
  · next c b hr =>
    split_ifs at h with hn ht hf hq
    · exact absurd (readliteral_kind h) (by simp)
    · exact absurd (readliteral_kind h) (by simp)
    · exact absurd (readliteral_kind h) (by simp)
    · exact readstring_string (hq ▸ hr) h
    · cases part_kind h
    · cases part_kind h
    · cases part_kind h
    · cases part_kind h
    · cases part_kind h
    · cases h

end IterFast

/-- The bytes behind the first quote of a string: the last of them is a quote, without a
backslash in front. -/
def Closed (s : List UInt8) : Prop := ∃ l, s = l ++ [ch '"'] ∧ l.getLast? ≠ some (ch '\\')

theorem Closed.tail {c : UInt8} {s : List UInt8} (h : Closed (c :: s)) (hs : s ≠ []) :
    Closed s := by
  obtain ⟨l, hl, hlast⟩ := h
  cases l with
  | nil =>
    cases hl
    exact absurd rfl hs
  | cons d l =>
    cases hl
    refine ⟨l, rfl, fun he => hlast ?_⟩
    rw [List.getLast?_cons, he]
    rfl

theorem closed_of_scan {prev : UInt8} {s : List UInt8} (h : scanString prev s = some s.length) :
    ∃ l, s = l ++ [ch '"'] ∧ (prev :: l).getLast? ≠ some (ch '\\') := by
  induction s generalizing prev with
  | nil => cases h
  | cons c s ih =>
    rw [scanString] at h
    split_ifs at h with hc
    · obtain ⟨rfl, hprev⟩ := hc
      have hs := List.eq_nil_of_length_eq_zero (Nat.succ.inj (Option.some.inj h)).symm
      subst hs
      exact ⟨[], rfl, fun he => hprev (Option.some.inj he)⟩
    · obtain ⟨m, hm, hlen⟩ := Option.map_eq_some_iff.1 h
      obtain ⟨l, rfl, hl⟩ := ih (by rw [hm, Nat.succ.inj hlen])
      exact ⟨c :: l, rfl, by rwa [List.getLast?_cons_cons]⟩

theorem closed_of_lexeme {p : List UInt8} (h : Lexeme .string p) :
    ∃ s, p = ch '"' :: s ∧ Closed s := by
  cases h with
  | @string s hs =>
    obtain ⟨l, hl, hlast⟩ := closed_of_scan hs
    refine ⟨s, rfl, l, hl, fun he => hlast ?_⟩
    rw [List.getLast?_cons, he]
    rfl

def Bounded (n : Nat) (r : Except Fault (List UInt8)) : Prop :=
  (∃ t, r = .ok t ∧ t.length ≤ n) ∨ ∃ e, r = .error (.error e)

theorem Bounded.front {n m : Nat} {r : Except Fault (List UInt8)}
    (h : Bounded n r) (q : List UInt8)
    (hm : q.length + n ≤ m) : Bounded m (do return q ++ (← r)) := by
  obtain ⟨t, rfl, ht⟩ | ⟨e, rfl⟩ := h
  · refine .inl ⟨q ++ t, rfl, ?_⟩
    rw [List.length_append]
    omega
  · exact .inr ⟨e, rfl⟩

theorem hex_cases (s : List UInt8) :
    (∃ u, hex s = .ok u ∧ ∀ c ∈ s, (hexval c).isSome) ∨ ∃ e, hex s = .error (.error e) := by
  rw [hex]
  generalize 0 = u
  induction s generalizing u with
  | nil => exact .inl ⟨u, rfl, by simp⟩
  | cons c s ih =>
    rw [List.foldlM_cons]
    cases hc : hexval c with
    | none => exact .inr ⟨_, rfl⟩
    | some d =>
      obtain ⟨v, hv, hs⟩ | herr := ih (u <<< 4 ||| d)
      · exact .inl ⟨v, hv, List.forall_mem_cons.2 ⟨by rw [hc]; rfl, hs⟩⟩
      · exact .inr herr

theorem Closed.quote_mem {s : List UInt8} (h : Closed s) : ch '"' ∈ s := by
  obtain ⟨l, rfl, -⟩ := h
  exact List.mem_append_right l (List.mem_singleton_self _)

/-- A backslash is never the last byte in front of the quote. -/
theorem Closed.behind {d : UInt8} {s : List UInt8} (h : Closed (ch '\\' :: d :: s)) :
    Closed s := by
  have hd := h.tail (List.cons_ne_nil d s)
  apply hd.tail
  rintro rfl
  obtain ⟨l, hl, hlast⟩ := h
  match l with
  | [] => cases hl
  | [c] =>
    cases hl
    exact hlast rfl
  | _ :: _ :: l =>
    have hlen := congrArg List.length hl
    simp at hlen

/-- The loop of `UnescapeString` stays inside of the string, and writes no more bytes than it
reads. -/
theorem unescape_bounded {s : List UInt8} (h : Closed s) : Bounded s.length (unescape s) := by
  have hquote : hexval (ch '"') = none := rfl
  fun_induction unescape s with
  | case1 => exact .inr ⟨_, rfl⟩
  | case2 h₁ h₂ h₃ h₄ s _ ih =>
    obtain ⟨u, hu, hdigits⟩ | ⟨e, he⟩ := hex_cases [h₁, h₂, h₃, h₄]
    · have hne {c : UInt8} (hc : c ∈ [h₁, h₂, h₃, h₄]) : c ≠ ch '"' := by
        rintro rfl
        have := hdigits _ hc
        rw [hquote] at this
        cases this
      have hs : s ≠ [] := by
        rintro rfl
        obtain ⟨l, hl, -⟩ := h.behind
        have hlast := congrArg List.getLast? hl
        rw [List.getLast?_concat] at hlast
        exact hne (c := h₄) (by simp) (Option.some.inj hlast)
      have hclosed : Closed s := by
        have h₄s := ((h.behind.tail (List.cons_ne_nil _ _)).tail (List.cons_ne_nil _ _)).tail
          (List.cons_ne_nil _ _)
        exact h₄s.tail hs
      have hlen := encodeRune_length u
      rw [hu]
      apply (ih hclosed).front (encodeRune u)
      simp only [List.length_cons]
      omega
    · rw [he]
      exact .inr ⟨e, rfl⟩
  | case3 s _ _ =>
    obtain ⟨u, -, hdigits⟩ | ⟨e, he⟩ := hex_cases s
    · have := hdigits _ h.behind.quote_mem
      rw [hquote] at this
      cases this
    · rw [he]
      exact .inr ⟨e, rfl⟩
  | case4 d s _ _ ih =>
    apply (ih h.behind).front [escapetable d]
    simp only [List.length_cons, List.length_nil]
    omega
  | case5 c d s hc ih =>
    apply (ih (h.tail (List.cons_ne_nil d s))).front [c]
    simp only [List.length_cons, List.length_nil]
    omega
  | case6 => exact .inl ⟨[], rfl, Nat.zero_le _⟩

theorem unescapeString_bounded {p : List UInt8} (h : Lexeme .string p) :
    Bounded p.length (UnescapeString p) := by
  obtain ⟨s, rfl, hs⟩ := closed_of_lexeme h
  refine (unescape_bounded hs).imp_left fun ⟨t, ht, hlen⟩ => ⟨t, ht, ?_⟩
  exact Nat.le_succ_of_le hlen

/-- `UnescapeString` never reads out of a string token of either iterator, and returns an error
or no more bytes than the token has. -/
theorem unescapeString_token :
    (∀ (it it' : Iter) p, it.next = (it', (.string, p)) →
      (∃ t, UnescapeString p = .ok t ∧ t.length ≤ p.length) ∨
        ∃ e, UnescapeString p = .error (.error e)) ∧
    ∀ (it it' : IterFast) p, it.next = (it', (.string, p)) →
      (∃ t, UnescapeString p = .ok t ∧ t.length ≤ p.length) ∨
        ∃ e, UnescapeString p = .error (.error e) :=
  ⟨fun _ _ _ h => unescapeString_bounded (Iter.next_string h),
    fun _ _ _ h => unescapeString_bounded (IterFast.next_string h)⟩

/-- A token that ends inside of an escape. -/
theorem unescapeString_token_short :
    (∃ t, UnescapeString [ch '"', ch '\\', ch 'u', ch '0', ch '"'] = .ok t ∧ t.length ≤ 5) ∨
      ∃ e, UnescapeString [ch '"', ch '\\', ch 'u', ch '0', ch '"'] = .error (.error e) :=
  unescapeString_token.1 (.new [ch '"', ch '\\', ch 'u', ch '0', ch '"'])
    ⟨[], 5, 0, [], none⟩ _ rfl

end Misc.Jsoniter
