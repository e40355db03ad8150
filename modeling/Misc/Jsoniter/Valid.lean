import Misc.Jsoniter.Spaced
import Misc.Jsoniter.StringToken

namespace Misc.Jsoniter
set_option autoImplicit true

/-- The loop of `Valid`; `none` when it has not ended after so many calls. -/
def Iter.valid : Nat → Iter → Option Bool
  | fuel, it =>
    if it.eof then some true
    else
      match fuel with
      | 0 => none
      | fuel + 1 =>
        match it.next with
        | (it, (k, _)) => if k = .invalid ∧ it.err.isSome then some false else valid fuel it

def Valid (fuel : Nat) (data : List UInt8) : Option Bool := (Iter.new data).valid fuel

def closer (cur : Nat) : UInt8 := if cur = 5 then ch '\x7d' else ch ']'

/-- What closes the containers that are open, the innermost first. -/
def Closers (s : List UInt8) : Prop := s ≠ [] ∧ ∀ c ∈ s, c = ch ']' ∨ c = ch '\x7d'

/-- The data ends behind a token, inside of a container: only closers are missing, or the value
of a key too. -/
def Cut (data : List UInt8) : Prop :=
  (∀ c ∈ data.getLast?, iswhitespace c = false) ∧ ∃ s ts, Closers s ∧
    (Text Lexeme Apart (data ++ s) ts ∨ Text Lexeme Apart (data ++ ch ':' :: ch '0' :: s) ts)

namespace Iter

def more (it : Iter) (s : List UInt8) : Iter := { it with rest := it.rest ++ s }

variable {it it' : Iter} {t : Token} {s : List UInt8} {k : Kind} {n : Nat}

@[simp] theorem more_cur (it : Iter) (s : List UInt8) : (it.more s).cur = it.cur := rfl
@[simp] theorem more_top (it : Iter) (s : List UInt8) : (it.more s).top = it.top := rfl
@[simp] theorem more_err (it : Iter) (s : List UInt8) : (it.more s).err = it.err := rfl
@[simp] theorem more_rest (it : Iter) (s : List UInt8) : (it.more s).rest = it.rest ++ s := rfl

theorem peek_more (hr : it.rest = c :: r) (s : List UInt8) : (it.more s).peek = c := by
  rw [peek, more_rest, hr]
  rfl

theorem skip_more (hn : n ≤ it.rest.length) (s : List UInt8) :
    (it.more s).skip n = (it.skip n).more s := by
  rw [skip, skip, more, more, List.drop_append_of_le_length hn]

theorem part_more (hn : n ≤ it.rest.length) (s : List UInt8) (k : Kind) :
    (it.more s).part k n = ((it.skip n).more s, (k, it.rest.take n)) := by
  rw [part, skip_more hn, more_rest, List.take_append_of_le_length hn]

theorem parsenum_more {b : List UInt8} (h : parsenum digit isfrac isexp b = .found n)
    (hs : Stops s) : parsenum digit isfrac isexp (b ++ s) = .found n := by
  fun_induction parsenum digit isfrac isexp b generalizing n with
  | case1 => cases h
  | case2 digit isfrac isexp hd =>
    cases h
    rw [Bool.not_eq_true] at hd
    subst hd
    exact parsenum_stop hs
  | case3 digit isfrac isexp c cs hc ih =>
    obtain ⟨m, hm, rfl⟩ := Scan.add_eq_found h
    rw [List.cons_append, parsenum_digit hc, ih hm]
    rfl
  | case4 => cases h
  | case5 digit isfrac isexp c cs hc hd hdot ih =>
    obtain ⟨m, hm, rfl⟩ := Scan.add_eq_found h
    rw [List.cons_append, parsenum.eq_def]
    dsimp only
    rw [if_neg hc, if_neg hd, if_pos hdot, ih hm]
    rfl
  | case6 => cases h
  | case7 digit isfrac isexp c hc hd hdot hexp cs ih =>
    obtain ⟨m, hm, rfl⟩ := Scan.add_eq_found h
    rw [List.cons_append, List.cons_append, parsenum.eq_def]
    dsimp only
    rw [if_neg hc, if_neg hd, if_neg hdot, if_pos hexp, if_pos rfl, ih hm]
    rfl
  | case8 digit isfrac isexp c hc hd hdot hexp c' cs hm' hc' ih =>
    obtain ⟨m, hm, rfl⟩ := Scan.add_eq_found h
    rw [List.cons_append, List.cons_append, parsenum.eq_def]
    dsimp only
    rw [if_neg hc, if_neg hd, if_neg hdot, if_pos hexp, if_neg hm', if_pos hc', ih hm]
    rfl
  | case9 => cases h
  | case10 digit isfrac isexp c cs hc hd hdot hexp =>
    cases h
    rw [List.cons_append, parsenum.eq_def]
    dsimp only
    rw [if_neg hc, if_neg hd, if_neg hdot, if_neg hexp]

theorem readnumber_more (h : it.readnumber = (it', t)) (ht : t.1 ≠ .invalid)
    (hr : it.rest = c :: r)
    (hs : Stops s) : (it.more s).readnumber = (it'.more s, t) := by
  have hi : (if it.peek = ch '-' then 1 else 0) ≤ it.rest.length := by
    rw [hr, List.length_cons]
    split_ifs <;> omega
  rw [readnumber] at h ⊢
  rw [peek_more hr, ← peek_of_rest hr, more_rest]
  generalize (if it.peek = ch '-' then 1 else 0) = i at h hi ⊢
  rw [List.drop_append_of_le_length hi]
  split at h
  · next n hn =>
    obtain ⟨m, hm, rfl⟩ := Scan.add_eq_found hn
    obtain ⟨p, b, hp, rfl, -⟩ := parsenum_split hm
    have hlen : p.length + i ≤ it.rest.length := by
      have := congrArg List.length hp
      rw [List.length_drop, List.length_append] at this
      omega
    rw [parsenum_more hm hs]
    dsimp only [Scan.add]
    rw [part_more hlen]
    cases h
    rfl
  · exact absurd (fail_valid h) ht
  · exact absurd (fail_valid h) ht

theorem readvalue_more (h : it.readvalue = (it', t)) (ht : t.1 ≠ .invalid) (hs : Stops s) :
    (it.more s).readvalue = (it'.more s, t) := by
  obtain ⟨b, hsc, hit⟩ | ⟨b, hb, rfl, rfl⟩ | ⟨b, hb, rfl, rfl⟩ := readvalue_eq h ht
  · by_cases hk : t.1 = .number
    · obtain ⟨c, q, hq, hc⟩ := lexeme_number_first (hk ▸ hsc.lexeme)
      have hr : it.rest = c :: (q ++ b) := by rw [hsc.rest, hq]; rfl
      have hr' : (it.more s).rest = c :: (q ++ b ++ s) := by rw [more_rest, hr]; rfl
      rw [readvalue_number hr hc] at h
      rw [readvalue_number hr' hc]
      exact readnumber_more h ht hr hs
    · have hr : (it.more s).rest = t.2 ++ (b ++ s) := by
        rw [more_rest, hsc.rest, List.append_assoc]
      have hlen : t.2.length ≤ it.rest.length := by
        rw [hsc.rest, List.length_append]
        exact Nat.le_add_right ..
      rw [readvalue_scalar hr hsc.lexeme fun h => absurd h hk, skip_more hlen, hit]
  · exact readvalue_object (by rw [more_rest, hb]; rfl)
  · exact readvalue_array (by rw [more_rest, hb]; rfl)

theorem readstring_more (h : it.readstring = (it', t)) (ht : t.1 ≠ .invalid) (s : List UInt8) :
    (it.more s).readstring = (it'.more s, t) := by
  obtain ⟨b, hsc, hk, hit⟩ := readstring_eq h ht
  obtain ⟨kind, p⟩ := t
  have hlex := hsc.lexeme
  have hrest := hsc.rest
  dsimp only at hk hlex hrest hit
  subst hk
  cases hlex with
  | @string q hq =>
    have hr : (it.more s).rest = ch '"' :: (q ++ (b ++ s)) := by
      rw [more_rest, hrest, List.append_assoc]
      rfl
    have hlen : (ch '"' :: q).length ≤ it.rest.length := by
      rw [hrest, List.length_append]
      exact Nat.le_add_right ..
    rw [readstring_lexeme hr hq, skip_more hlen, hit]

theorem close_more (h : it.close k = (it', t)) (hr : it.rest = c :: r) (s : List UInt8) :
    (it.more s).close k = (it'.more s, t) := by
  have hr' : (it.more s).rest = c :: (r ++ s) := by rw [more_rest, hr]; rfl
  rw [close_eq hr] at h
  rw [close_eq hr']
  cases h
  rfl

theorem separated_more {f : Iter → Iter × Token} (h : it.separated f = (it', t))
    (ht : t.1 ≠ .invalid)
    (hr : it.rest = c :: r)
    (hf : ∀ it : Iter, f it = (it', t) → f (it.more s) = (it'.more s, t)) :
    (it.more s).separated f = (it'.more s, t) := by
  obtain ⟨w, d, r', rfl, hw, hd, hk⟩ := separated_eq h ht hr
  have hr' : (it.more s).rest = c :: (w ++ (d :: (r' ++ s))) := by
    rw [more_rest, hr]
    simp only [List.cons_append, List.append_assoc]
  rw [separated_solid hr' hw hd]
  exact hf _ hk

/-- The state machine goes on as before when more follows. -/
theorem state_more (h : it.state = (it', t)) (ht : t.1 ≠ .invalid) (hr : it.rest = c :: r)
    (hs : Stops s) : (it.more s).state = (it'.more s, t) := by
  have hp := peek_of_rest hr
  rw [state, hp] at h
  rw [state, more_cur, peek_more hr]
  split at h
  · split_ifs at h ⊢
    · exact close_more h hr s
    · exact readvalue_more h ht hs
  · split_ifs at h ⊢
    · exact separated_more h ht hr fun it hit => readvalue_more hit ht hs
    · exact close_more h hr s
    · exact absurd (fail_valid h) ht
  · split_ifs at h ⊢
    · exact close_more h hr s
    · exact readstring_more h ht s
  · split_ifs at h ⊢
    · exact separated_more h ht hr fun it hit => readvalue_more hit ht hs
    · exact absurd (fail_valid h) ht
  · split_ifs at h ⊢
    · exact separated_more h ht hr fun it hit => readstring_more hit ht s
    · exact close_more h hr s
    · exact absurd (fail_valid h) ht
  · exact readvalue_more h ht hs

end Iter

/-! ## Where a token ends -/

theorem numeral_last (h : Numeral digit isfrac isexp p) (hp : digit = true ∨ p ≠ []) :
    ∃ c, p.getLast? = some c ∧ isdigit c = true := by
  have hcons {c d : UInt8} {q : List UInt8} (hq : q.getLast? = some d) :
      (c :: q).getLast? = some d := by
    rw [List.getLast?_cons, hq]
    rfl
  induction h with
  | done => exact absurd hp (by simp)
  | @digit c _ _ q _ hc hq ih =>
    by_cases hne : q = []
    · subst hne
      exact ⟨c, rfl, hc⟩
    · obtain ⟨d, hd, hdig⟩ := ih (.inr hne)
      exact ⟨d, hcons hd, hdig⟩
  | frac _ ih =>
    obtain ⟨d, hd, hdig⟩ := ih (.inl rfl)
    exact ⟨d, hcons hd, hdig⟩
  | exp _ _ ih =>
    obtain ⟨d, hd, hdig⟩ := ih (.inl rfl)
    exact ⟨d, hcons hd, hdig⟩
  | minus _ _ ih =>
    obtain ⟨d, hd, hdig⟩ := ih (.inl rfl)
    exact ⟨d, hcons (hcons hd), hdig⟩

theorem lexeme_last (h : Lexeme kind p) : ∃ c, p.getLast? = some c ∧ iswhitespace c = false ∧
    c ≠ ch ']' ∧ c ≠ ch '\x7d' ∧ c ≠ ch ':' ∧ (isdigit c = true → kind = .number) := by
  have hdigit {c : UInt8} (hc : isdigit c = true) : iswhitespace c = false ∧ c ≠ ch ']' ∧
      c ≠ ch '\x7d' ∧ c ≠ ch ':' := by
    obtain ⟨hw, -, -, -, hb, hb'⟩ := first_digit (.inl hc)
    refine ⟨hw, hb, hb', ?_⟩
    rintro rfl
    revert hc
    decide
  cases h with
  | null | true | false => exact ⟨_, rfl, rfl, by decide, by decide, by decide, by decide⟩
  | @string s hs =>
    obtain ⟨_, heq, l, rfl, -⟩ := closed_of_lexeme (.string hs)
    cases heq
    refine ⟨ch '"', ?_, rfl, by decide, by decide, by decide, by decide⟩
    rw [← List.cons_append, List.getLast?_concat]
  | number hn =>
    obtain ⟨c, hc, hd⟩ := numeral_last hn (.inl rfl)
    obtain ⟨h₁, h₂, h₃, h₄⟩ := hdigit hd
    exact ⟨c, hc, h₁, h₂, h₃, h₄, fun _ => rfl⟩
  | minus hn =>
    obtain ⟨c, hc, hd⟩ := numeral_last hn (.inl rfl)
    obtain ⟨h₁, h₂, h₃, h₄⟩ := hdigit hd
    refine ⟨c, ?_, h₁, h₂, h₃, h₄, fun _ => rfl⟩
    rw [List.getLast?_cons, hc]
    rfl

/-- Bytes with which no token begins, and into which none goes on. -/
structure Foreign (s : List UInt8) : Prop where
  stops : Stops s
  first : ∀ c ∈ s.head?, c = ch ']' ∨ c = ch '\x7d' ∨ c = ch ':'
  whole : ∀ kind p r b, Lexeme kind p → p ++ b = r ++ s → ∃ b', r = p ++ b' ∧ b = b' ++ s

theorem whole_of (h : ∀ kind p r q b, Lexeme kind p → p = r ++ q → s = q ++ b → q = []) :
    ∀ kind p r b, Lexeme kind p → p ++ b = r ++ s → ∃ b', r = p ++ b' ∧ b = b' ++ s := by
  intro kind p r b hp heq
  obtain ⟨q, hq, hs⟩ | ⟨q, hq, hs⟩ := List.append_eq_append_iff.1 heq
  · exact ⟨q, hq, hs⟩
  · have hnil := h kind p r q b hp hq hs
    subst hnil
    rw [List.append_nil] at hq
    rw [List.nil_append] at hs
    exact ⟨[], by rw [hq, List.append_nil], hs.symm⟩

theorem last_mem (hp : p.getLast? = some c) (hq : p = r ++ q) (hne : q ≠ []) : c ∈ q := by
  rw [hq, List.getLast?_append_of_ne_nil _ hne] at hp
  exact List.mem_of_getLast? hp

theorem Closers.foreign (h : Closers s) : Foreign s := by
  obtain ⟨hne, hall⟩ := h
  have hhead (c : UInt8) (hc : c ∈ s.head?) : c = ch ']' ∨ c = ch '\x7d' :=
    hall c (List.mem_of_mem_head? hc)
  refine ⟨fun c hc => ?_, fun c hc => (hhead c hc).imp_right .inl, whole_of ?_⟩
  · rcases hhead c hc with rfl | rfl <;> decide
  · intro kind p r q b hp hq hs
    by_contra hqne
    obtain ⟨c, hc, -, hb, hb', -⟩ := lexeme_last hp
    have hmem : c ∈ s := hs ▸ List.mem_append_left b (last_mem hc hq hqne)
    exact (hall c hmem).elim hb hb'

theorem Closers.foreign_colon (h : Closers s) : Foreign (ch ':' :: ch '0' :: s) := by
  refine ⟨fun c hc => ?_, fun c hc => ?_, whole_of ?_⟩
  · cases hc
    decide
  · cases hc
    exact .inr (.inr rfl)
  · intro kind p r q b hp hq hs
    by_contra hqne
    obtain ⟨c, hc, -, hb, hb', hcolon, hdigit⟩ := lexeme_last hp
    have hmem := last_mem hc hq hqne
    have hsmem : c ∈ ch ':' :: ch '0' :: s := hs ▸ List.mem_append_left b hmem
    rcases List.mem_cons.1 hsmem with rfl | hsmem
    · exact hcolon rfl
    rcases List.mem_cons.1 hsmem with rfl | hsmem
    · -- a number has no colon
      have hnum : kind = .number := hdigit rfl
      subst hnum
      cases q with
      | nil => exact hqne rfl
      | cons d q =>
        have hd :=
          IterFast.lexeme_isnumber hp d (hq ▸ List.mem_append_right r List.mem_cons_self)
        rw [← (List.cons.inj hs).1] at hd
        revert hd
        decide
    · exact (h.2 c hsmem).elim hb hb'

theorem Foreign.not_starts (h : Foreign s) (hw : Blank w)
    (hne : c ≠ ch ']' ∧ c ≠ ch '\x7d' ∧ c ≠ ch ':') (q : List UInt8) : s ≠ w ++ (c :: q) := by
  rintro rfl
  cases w with
  | nil => exact (h.first c rfl).elim hne.1 fun h => h.elim hne.2.1 hne.2.2
  | cons d w =>
    have hd := hw d List.mem_cons_self
    rcases h.first d rfl with rfl | rfl | rfl <;> revert hd <;> decide

theorem value_first_ne (h : Value Lexeme v ts) : ∃ c q, v = c :: q ∧ iswhitespace c = false ∧
    c ≠ ch ']' ∧ c ≠ ch '\x7d' ∧ c ≠ ch ':' := by
  cases h with
  | scalar _ hp =>
    cases hp with
    | null | true | false | string => exact ⟨_, _, rfl, rfl, by decide, by decide, by decide⟩
    | number hn =>
      obtain ⟨c, q, rfl, hc, -⟩ := hn.first
      obtain ⟨hw, -, -, -, hb, hb'⟩ := first_digit (.inl hc)
      refine ⟨c, q, rfl, hw, hb, hb', ?_⟩
      rintro rfl
      revert hc
      decide
    | minus hn => exact ⟨_, _, rfl, rfl, by decide, by decide, by decide⟩
  | emptyArray | array | emptyObject | object =>
    exact ⟨_, _, rfl, rfl, by decide, by decide, by decide⟩

theorem member_first_ne (h : Member Lexeme m ts) : ∃ q, m = ch '"' :: q := by
  cases h with
  | mk hk =>
    cases hk with
    | string => exact ⟨_, rfl⟩

theorem blank_split (heq : w ++ (x :: y) = r ++ s) (hw : Blank w) (hr : r ≠ [])
    (hlast : ∀ c ∈ r.getLast?, iswhitespace c = false) :
    ∃ r', r = w ++ (x :: r') ∧ y = r' ++ s := by
  have hsolid (hmem : r.getLast hr ∈ w) : False := by
    have hwhite := hw _ hmem
    rw [hlast _ (List.getLast?_eq_some_getLast hr)] at hwhite
    cases hwhite
  obtain ⟨q, hq, hs⟩ | ⟨q, hq, -⟩ := List.append_eq_append_iff.1 heq
  · cases q with
    | nil =>
      rw [List.append_nil] at hq
      subst hq
      exact (hsolid (List.getLast_mem hr)).elim
    | cons d q =>
      cases hs
      exact ⟨q, hq, rfl⟩
  · subst hq
    exact (hsolid (List.mem_append_left q (List.getLast_mem hr))).elim

namespace Iter

variable {it it' : Iter} {t : Token} {s : List UInt8}

theorem readvalue_valid (hs : Foreign s) (heq : v ++ b = it.rest ++ s) (hv : Value Lexeme v ts)
    (hr : it.rest ≠ []) (hb : (∃ part, ts = [(.number, part)]) → Stops b) :
    it.readvalue.2.1 ≠ .invalid := by
  have hfirst (c : UInt8) (q : List UInt8) (hc : c :: q = it.rest ++ s) :
      ∃ q', it.rest = c :: q' := by
    cases hrest : it.rest with
    | nil => exact absurd hrest hr
    | cons d q' =>
      rw [hrest] at hc
      cases hc
      exact ⟨q', rfl⟩
  cases hv with
  | @scalar kind _ hk hp =>
    obtain ⟨b', hb', rfl⟩ := hs.whole kind v it.rest b hp heq
    have hstop : kind = .number → Stops b' := by
      rintro rfl
      have hall := hb ⟨v, rfl⟩
      cases b' with
      | nil => exact nofun
      | cons c b' => exact fun d hd => hall d hd
    rw [readvalue_scalar hb' hp hstop]
    rintro rfl
    cases hk
  | emptyArray | array =>
    obtain ⟨q, hq⟩ := hfirst _ _ heq
    rw [readvalue_array hq]
    exact nofun
  | emptyObject | object =>
    obtain ⟨q, hq⟩ := hfirst _ _ heq
    rw [readvalue_object hq]
    exact nofun

theorem readstring_valid (hs : Foreign s) (heq : m ++ b = it.rest ++ s)
    (hm : Member Lexeme m ts) : it.readstring.2.1 ≠ .invalid := by
  cases hm with
  | mk hk =>
    rw [List.append_assoc] at heq
    obtain ⟨b', hb', -⟩ := hs.whole _ _ it.rest _ hk heq
    cases hk with
    | string hq =>
      rw [readstring_lexeme hb' hq]
      exact nofun

theorem separated_valid (hs : Foreign s) {f : Iter → Iter × Token} (hr : it.rest = x :: r)
    (heq : w ++ (c :: q) = r ++ s) (hw : Blank w) (hc : iswhitespace c = false)
    (hne : c ≠ ch ']' ∧ c ≠ ch '\x7d' ∧ c ≠ ch ':')
    (hlast : ∀ c ∈ it.rest.getLast?, iswhitespace c = false)
    (hf : ∀ r', q = r' ++ s →
      (f ⟨c :: r', it.i + 1 + w.length, it.cur, it.top, it.err⟩).2.1 ≠ .invalid) :
    (it.separated f).2.1 ≠ .invalid := by
  have hrne : r ≠ [] := by
    rintro rfl
    exact hs.not_starts hw hne q heq.symm
  have hrlast : ∀ c ∈ r.getLast?, iswhitespace c = false := by
    intro d hd
    apply hlast
    rw [hr, List.getLast?_cons, hd]
    rfl
  obtain ⟨r', rfl, hq⟩ := blank_split heq hw hrne hrlast
  rw [separated_solid hr hw hc]
  exact hf r' hq

theorem next_valid (hs : Foreign s) (hl : Left Lexeme Apart it.cur it.top (it.rest ++ s) ts)
    (herr : it.err = none) (hr : it.rest ≠ [])
    (hlast : ∀ c ∈ it.rest.getLast?, iswhitespace c = false) : it.next.2.1 ≠ .invalid := by
  obtain ⟨rest, i, cur, top, err⟩ := it
  dsimp only at hl herr hr hlast
  generalize heq : rest ++ s = d at hl
  have hsuffix {w r : List UInt8} (hrest : rest = w ++ r) (hne : r ≠ []) :
      ∀ c ∈ r.getLast?, iswhitespace c = false := by
    intro c hc
    apply hlast
    rw [hrest, List.getLast?_append_of_ne_nil _ hne]
    exact hc
  have hcloses {it : Iter} {k : Kind} (hk : k ≠ .invalid) : (it.close k).2.1 ≠ .invalid :=
    close_valid rfl hk
  cases hl with
  | start ht =>
    cases ht with
    | nil hw =>
      subst heq
      have hwhite := hw _ (List.mem_append_left s (List.getLast_mem hr))
      rw [hlast _ (List.getLast?_eq_some_getLast hr)] at hwhite
      cases hwhite
    | cons hw hv hfar ht =>
      obtain ⟨c, q, rfl, hc, -⟩ := value_first_ne hv
      rw [List.cons_append] at heq
      obtain ⟨r, rfl, hq⟩ := blank_split heq.symm hw hr hlast
      rw [next_at rfl hw hc herr]
      refine readvalue_valid hs ?_ hv (List.cons_ne_nil c r) fun ⟨part, hp⟩ =>
        text_stops ht (hfar part hp)
      exact congrArg (List.cons c) hq
  | emptyArray hw ht =>
    obtain ⟨r, rfl, -⟩ := blank_split heq.symm hw hr hlast
    rw [next_at rfl hw rfl herr]
    exact hcloses (by decide)
  | array hw hv ht =>
    obtain ⟨c, q, rfl, hc, hne, -⟩ := value_first_ne hv
    rw [List.cons_append] at heq
    obtain ⟨r, rfl, hq⟩ := blank_split heq.symm hw hr hlast
    rw [next_at rfl hw hc herr]
    simp only [state]
    rw [if_neg (by exact hne)]
    refine readvalue_valid hs ?_ hv (List.cons_ne_nil c r) fun _ => tail_stops ht (by simp)
    exact congrArg (List.cons c) hq
  | element ht =>
    cases ht with
    | array he ht =>
      cases he with
      | close hw =>
        rw [List.append_assoc] at heq
        obtain ⟨r, rfl, -⟩ := blank_split heq.symm hw hr hlast
        rw [next_at rfl hw rfl herr]
        exact hcloses (by decide)
      | more hw hw' hv he =>
        obtain ⟨c, q, rfl, hc, hne⟩ := value_first_ne hv
        simp only [List.append_assoc, List.cons_append] at heq
        obtain ⟨r, rfl, hq⟩ := blank_split heq.symm hw hr hlast
        rw [next_at rfl hw rfl herr]
        refine separated_valid hs rfl hq hw' hc hne
          (hsuffix rfl (List.cons_ne_nil _ r)) fun r' hr' => ?_
        refine readvalue_valid hs ?_ hv (List.cons_ne_nil c r') fun _ =>
          tail_stops (.array he ht) (by simp)
        exact congrArg (List.cons c) hr'
  | emptyObject hw ht =>
    obtain ⟨r, rfl, -⟩ := blank_split heq.symm hw hr hlast
    rw [next_at rfl hw rfl herr]
    exact hcloses (by decide)
  | object hw hm ht =>
    obtain ⟨q, rfl⟩ := member_first_ne hm
    rw [List.cons_append] at heq
    obtain ⟨r, rfl, hq⟩ := blank_split heq.symm hw hr hlast
    have hne : ch '"' ≠ ch '\x7d' := by decide
    rw [next_at rfl hw rfl herr]
    simp only [state]
    rw [if_neg (by exact hne)]
    exact readstring_valid hs (congrArg (List.cons (ch '"')) hq) hm
  | colon hw hw' hv ht =>
    obtain ⟨c, q, rfl, hc, hne⟩ := value_first_ne hv
    rw [List.cons_append] at heq
    obtain ⟨r, rfl, hq⟩ := blank_split heq.symm hw hr hlast
    rw [next_at rfl hw rfl herr]
    refine separated_valid hs rfl hq hw' hc hne
      (hsuffix rfl (List.cons_ne_nil _ r)) fun r' hr' => ?_
    refine readvalue_valid hs ?_ hv (List.cons_ne_nil c r') fun _ => tail_stops ht (by simp)
    exact congrArg (List.cons c) hr'
  | member ht =>
    cases ht with
    | object he ht =>
      cases he with
      | close hw =>
        rw [List.append_assoc] at heq
        obtain ⟨r, rfl, -⟩ := blank_split heq.symm hw hr hlast
        rw [next_at rfl hw rfl herr]
        exact hcloses (by decide)
      | more hw hw' hm he =>
        obtain ⟨q, rfl⟩ := member_first_ne hm
        simp only [List.append_assoc, List.cons_append] at heq
        obtain ⟨r, rfl, hq⟩ := blank_split heq.symm hw hr hlast
        rw [next_at rfl hw rfl herr]
        have hne : ch '"' ≠ ch ']' ∧ ch '"' ≠ ch '\x7d' ∧ ch '"' ≠ ch ':' := by decide
        refine separated_valid hs rfl hq hw' rfl hne
          (hsuffix rfl (List.cons_ne_nil _ r)) fun r' hr' => ?_
        exact readstring_valid hs (congrArg (List.cons (ch '"')) hr') hm

theorem readvalue_parts (h : it.readvalue = (it', t)) (ht : t.1 ≠ .invalid) :
    it.rest = t.2 ++ it'.rest ∧ ∃ c, t.2.getLast? = some c ∧ iswhitespace c = false := by
  obtain ⟨b, hsc, rfl⟩ | ⟨b, hb, rfl, rfl⟩ | ⟨b, hb, rfl, rfl⟩ := readvalue_eq h ht
  · obtain ⟨c, hc, hw, -⟩ := lexeme_last hsc.lexeme
    refine ⟨?_, c, hc, hw⟩
    rw [rest_skip hsc.rest]
    exact hsc.rest
  · exact ⟨hb, _, rfl, rfl⟩
  · exact ⟨hb, _, rfl, rfl⟩

theorem readstring_parts (h : it.readstring = (it', t)) (ht : t.1 ≠ .invalid) :
    it.rest = t.2 ++ it'.rest ∧ ∃ c, t.2.getLast? = some c ∧ iswhitespace c = false := by
  obtain ⟨b, hsc, -, rfl⟩ := readstring_eq h ht
  obtain ⟨c, hc, hw, -⟩ := lexeme_last hsc.lexeme
  refine ⟨?_, c, hc, hw⟩
  rw [rest_skip hsc.rest]
  exact hsc.rest

theorem close_parts (h : it.close k = (it', t)) (hr : it.rest = c :: r)
    (hc : iswhitespace c = false) :
    it.rest = t.2 ++ it'.rest ∧ ∃ c, t.2.getLast? = some c ∧ iswhitespace c = false := by
  rw [close_eq hr] at h
  cases h
  exact ⟨hr, c, rfl, hc⟩

theorem state_parts (h : it.state = (it', t)) (ht : t.1 ≠ .invalid) (hr : it.rest = c :: r)
    (hc : iswhitespace c = false) :
    ∃ q, it.rest = q ++ (t.2 ++ it'.rest) ∧ ∃ c, t.2.getLast? = some c ∧
      iswhitespace c = false := by
  have hsep {f : Iter → Iter × Token} (h : it.separated f = (it', t))
      (hf : ∀ it : Iter, f it = (it', t) →
        it.rest = t.2 ++ it'.rest ∧ ∃ c, t.2.getLast? = some c ∧ iswhitespace c = false) :
      ∃ q, it.rest = q ++ (t.2 ++ it'.rest) ∧ ∃ c, t.2.getLast? = some c ∧
        iswhitespace c = false := by
    obtain ⟨w, d, r', rfl, -, -, hk⟩ := separated_eq h ht hr
    obtain ⟨hrest, hlast⟩ := hf _ hk
    dsimp only at hrest
    refine ⟨c :: w, ?_, hlast⟩
    rw [hr, ← hrest]
    rfl
  rw [state] at h
  split at h
  · split_ifs at h
    · exact ⟨[], close_parts h hr hc⟩
    · exact ⟨[], (readvalue_parts h ht :)⟩
  · split_ifs at h
    · exact hsep h fun it hit => (readvalue_parts hit ht :)
    · exact ⟨[], close_parts h hr hc⟩
    · exact absurd (fail_valid h) ht
  · split_ifs at h
    · exact ⟨[], close_parts h hr hc⟩
    · exact ⟨[], (readstring_parts h ht :)⟩
  · split_ifs at h
    · exact hsep h fun it hit => (readvalue_parts hit ht :)
    · exact absurd (fail_valid h) ht
  · split_ifs at h
    · exact hsep h fun it hit => (readstring_parts hit ht :)
    · exact ⟨[], close_parts h hr hc⟩
    · exact absurd (fail_valid h) ht
  · exact ⟨[], (readvalue_parts h ht :)⟩

theorem next_parts (h : it.next = (it', t)) (ht : t.1 ≠ .invalid) :
    (∃ q, it.rest = q ++ (t.2 ++ it'.rest) ∧ ∃ c, t.2.getLast? = some c ∧
      iswhitespace c = false) ∧
      it.err = none ∧ ∀ s, Stops s → (it.more s).next = (it'.more s, t) := by
  obtain ⟨herr, w, c, r, hr, hw, hc, hstate⟩ := next_eq h ht
  have hskip : it.skip w.length = ⟨c :: r, it.i + w.length, it.cur, it.top, it.err⟩ := by
    simp only [skip, hr, List.drop_left]
  rw [hskip] at hstate
  refine ⟨?_, herr, fun s hs => ?_⟩
  · obtain ⟨q, hq, hlast⟩ := state_parts hstate ht rfl hc
    refine ⟨w ++ q, ?_, hlast⟩
    dsimp only at hq
    rw [hr, hq, List.append_assoc]
  · have hmore : (it.more s).rest = w ++ (c :: (r ++ s)) := by
      rw [more_rest, hr, List.append_assoc]
      rfl
    rw [next_at hmore hw hc herr]
    exact state_more hstate ht rfl hs

theorem valid_eof (h : it.rest = []) (n : Nat) : it.valid n = some true := by
  rw [valid.eq_def]
  exact if_pos (by rw [eof, h]; rfl)

theorem valid_zero (h : it.rest ≠ []) : it.valid 0 = none := by
  rw [valid.eq_def]
  exact if_neg (by rwa [eof, List.isEmpty_iff])

theorem valid_next (h : it.rest ≠ []) (n : Nat) : it.valid (n + 1) =
    if it.next.2.1 = .invalid ∧ it.next.1.err.isSome then some false else it.next.1.valid n := by
  rw [valid.eq_def]
  exact if_neg (by rwa [eof, List.isEmpty_iff])

/-- `Valid` ends. -/
theorem valid_total (hn : it.rest.length ≤ n) : ∃ b, it.valid n = some b := by
  induction n generalizing it with
  | zero => exact ⟨_, valid_eof (List.eq_nil_of_length_eq_zero (Nat.le_zero.1 hn)) 0⟩
  | succ n ih =>
    by_cases hr : it.rest = []
    · exact ⟨_, valid_eof hr _⟩
    · obtain ⟨it', t, hnext⟩ : ∃ it' t, it.next = (it', t) := ⟨_, _, rfl⟩
      rw [valid_next hr, hnext]
      split_ifs with hinv
      · exact ⟨_, rfl⟩
      · by_cases ht : t.1 = .invalid
        · have herr : it'.err = none := by
            rw [← Option.not_isSome_iff_eq_none]
            intro h
            exact hinv ⟨ht, h⟩
          obtain ⟨herr', hcur, hb⟩ := next_invalid hnext ht herr
          rw [next_blank hb herr' hcur] at hnext
          cases hnext
          exact ⟨_, valid_eof rfl n⟩
        · obtain ⟨⟨q, hq, c, hc, -⟩, -⟩ := next_parts hnext ht
          apply ih
          have hlen := congrArg List.length hq
          have hpos : 0 < t.2.length := List.length_pos_of_mem (List.mem_of_getLast? hc)
          rw [List.length_append, List.length_append] at hlen
          dsimp only
          omega

end Iter

theorem tail_closers (htop : ∀ c ∈ top, c = 2 ∨ c = 5) : ∃ s ts,
    (∀ c ∈ s, c = ch ']' ∨ c = ch '\x7d') ∧ Tail Lexeme Apart top s ts := by
  induction top with
  | nil => exact ⟨[], [], nofun, .text (.nil blank_nil)⟩
  | cons c top ih =>
    obtain ⟨hc, htop⟩ := List.forall_mem_cons.1 htop
    obtain ⟨s, ts, hs, ht⟩ := ih htop
    rcases hc with rfl | rfl
    · exact ⟨ch ']' :: s, _, List.forall_mem_cons.2 ⟨.inl rfl, hs⟩, .array (.close blank_nil) ht⟩
    · exact ⟨ch '\x7d' :: s, _, List.forall_mem_cons.2 ⟨.inr rfl, hs⟩,
        .object (.close blank_nil) ht⟩

/-- Inside of a container closers end the text, or a colon, a value and closers. -/
theorem exists_closers (hcur : cur ≠ 0) (hle : cur ≤ 5) (htop : ∀ c ∈ top, c = 2 ∨ c = 5) :
    ∃ s ts, Closers s ∧ (Left Lexeme Apart cur top s ts ∨
      Left Lexeme Apart cur top (ch ':' :: ch '0' :: s) ts) := by
  obtain ⟨s, ts, hs, ht⟩ := tail_closers htop
  have hbracket : Closers (ch ']' :: s) := ⟨nofun, List.forall_mem_cons.2 ⟨.inl rfl, hs⟩⟩
  have hbrace : Closers (ch '\x7d' :: s) := ⟨nofun, List.forall_mem_cons.2 ⟨.inr rfl, hs⟩⟩
  match cur, hle with
  | 0, _ => exact absurd rfl hcur
  | 1, _ => exact ⟨_, _, hbracket, .inl (.emptyArray blank_nil ht)⟩
  | 2, _ => exact ⟨_, _, hbracket, .inl (.element (.array (.close blank_nil) ht))⟩
  | 3, _ => exact ⟨_, _, hbrace, .inl (.emptyObject blank_nil ht)⟩
  | 4, _ =>
    have hzero : Value Lexeme [ch '0'] [(.number, [ch '0'])] :=
      .scalar rfl (.number (.digit rfl .done))
    exact ⟨_, _, hbrace, .inr (.colon blank_nil blank_nil hzero (.object (.close blank_nil) ht))⟩
  | 5, _ => exact ⟨_, _, hbrace, .inl (.member (.object (.close blank_nil) ht))⟩

theorem end_left {it : Iter} (hr : it.rest = []) (hs : it.Sane) :
    (∃ ts, Left Lexeme Apart it.cur it.top it.rest ts) ∨
      (∀ c ∈ it.rest.getLast?, iswhitespace c = false) ∧ ∃ s ts, Closers s ∧
        (Left Lexeme Apart it.cur it.top (it.rest ++ s) ts ∨
          Left Lexeme Apart it.cur it.top (it.rest ++ ch ':' :: ch '0' :: s) ts) := by
  rw [hr]
  by_cases hcur : it.cur = 0
  · rw [hcur, hs.top_eq hcur]
    exact .inl ⟨[], .start (.nil blank_nil)⟩
  · exact .inr ⟨nofun, exists_closers hcur hs.cur_le hs.top⟩

/-- When `Valid` has come to the end, the data is a text, or one that is cut. -/
theorem valid_left {it : Iter} (h : it.valid n = some true) (hs : it.Sane) :
    (∃ ts, Left Lexeme Apart it.cur it.top it.rest ts) ∨
      (∀ c ∈ it.rest.getLast?, iswhitespace c = false) ∧ ∃ s ts, Closers s ∧
        (Left Lexeme Apart it.cur it.top (it.rest ++ s) ts ∨
          Left Lexeme Apart it.cur it.top (it.rest ++ ch ':' :: ch '0' :: s) ts) := by
  induction n generalizing it with
  | zero =>
    by_cases hr : it.rest = []
    · exact end_left hr hs
    · rw [Iter.valid_zero hr] at h
      cases h
  | succ n ih =>
    by_cases hr : it.rest = []
    · exact end_left hr hs
    · obtain ⟨it', t, hnext⟩ : ∃ it' t, it.next = (it', t) := ⟨_, _, rfl⟩
      rw [Iter.valid_next hr, hnext] at h
      split_ifs at h with hinv
      · cases h
      by_cases ht : t.1 = .invalid
      · have herr : it'.err = none := by
          rw [← Option.not_isSome_iff_eq_none]
          intro h
          exact hinv ⟨ht, h⟩
        obtain ⟨-, hcur, hb⟩ := Iter.next_invalid hnext ht herr
        rw [hcur, hs.top_eq hcur]
        exact .inl ⟨[], .start (.nil hb)⟩
      · obtain ⟨⟨q, hq, c, hc, hw⟩, -, hmore⟩ := Iter.next_parts hnext ht
        have hgo {s : List UInt8} {ts : List Token} (hstops : Stops s)
            (hl : Left Lexeme Apart it'.cur it'.top (it'.rest ++ s) ts) :
            Left Lexeme Apart it.cur it.top (it.rest ++ s) (t :: ts) :=
          Iter.next_left (hmore s hstops) ht ⟨hs.cur_le, hs.top_eq, hs.top⟩ hl
        rcases ih h (Iter.next_sane hnext ht hs) with ⟨ts, hl⟩ | ⟨hlast, s, ts, hclose, hl⟩
        · exact .inl ⟨_, Iter.next_left hnext ht hs hl⟩
        · refine .inr ⟨?_, s, t :: ts, hclose,
            hl.imp (hgo hclose.foreign.stops) (hgo hclose.foreign_colon.stops)⟩
          intro d hd
          rw [hq] at hd
          by_cases hend : it'.rest = []
          · rw [hend, List.append_nil, List.getLast?_append, hc] at hd
            cases hd
            exact hw
          · rw [List.getLast?_append_of_ne_nil _ (List.append_ne_nil_of_right_ne_nil _ hend),
              List.getLast?_append_of_ne_nil _ hend] at hd
            exact hlast d hd

theorem Foreign.not_text (hs : Foreign s) (hne : s ≠ []) : ¬ Text Lexeme Apart s ts := by
  intro ht
  cases ht with
  | nil hw =>
    cases s with
    | nil => exact hne rfl
    | cons c s =>
      have hc := hw c List.mem_cons_self
      rcases hs.first c rfl with rfl | rfl | rfl <;> revert hc <;> decide
  | cons hw hv =>
    obtain ⟨c, q, rfl, -, hc⟩ := value_first_ne hv
    exact hs.not_starts hw hc _ rfl

theorem not_blank {r : List UInt8} (hr : r ≠ [])
    (hlast : ∀ c ∈ r.getLast?, iswhitespace c = false)
    (s : List UInt8) : ¬ Blank (r ++ s) := by
  intro hw
  have hwhite := hw _ (List.mem_append_left s (List.getLast_mem hr))
  rw [hlast _ (List.getLast?_eq_some_getLast hr)] at hwhite
  cases hwhite

theorem foreign_end {it : Iter} (hs : Foreign s) (hne : s ≠ []) (hr : it.rest = [])
    (hl : Left Lexeme Apart it.cur it.top (it.rest ++ s) ts)
    (herr : it.err = none) (us : List Token) :
    ¬ Left Lexeme Apart it.cur it.top it.rest us := by
  intro hus
  obtain ⟨-, hcur, htop, -⟩ | ⟨_, -, -, -, -, hlt⟩ := Iter.left_goes hus herr
  · rw [hr, hcur, htop] at hl
    cases hl with
    | start ht => exact hs.not_text hne ht
  · rw [hr] at hlt
    exact absurd hlt (Nat.not_lt_zero _)

theorem foreign_valid {it : Iter} (hs : Foreign s) (hne : s ≠ [])
    (hl : Left Lexeme Apart it.cur it.top (it.rest ++ s) ts) (herr : it.err = none)
    (hlast : ∀ c ∈ it.rest.getLast?, iswhitespace c = false) (hn : it.rest.length ≤ n) :
    it.valid n = some true ∧ ∀ us, ¬ Left Lexeme Apart it.cur it.top it.rest us := by
  induction n generalizing it ts with
  | zero =>
    have hr := List.eq_nil_of_length_eq_zero (Nat.le_zero.1 hn)
    exact ⟨Iter.valid_eof hr 0, foreign_end hs hne hr hl herr⟩
  | succ n ih =>
    by_cases hr : it.rest = []
    · exact ⟨Iter.valid_eof hr _, foreign_end hs hne hr hl herr⟩
    · have hvalid := Iter.next_valid hs hl herr hr hlast
      obtain ⟨it', t, hnext⟩ : ∃ it' t, it.next = (it', t) := ⟨_, _, rfl⟩
      rw [hnext] at hvalid
      obtain ⟨⟨q, hq, c, hc, -⟩, -, hmore⟩ := Iter.next_parts hnext hvalid
      have hlast' : ∀ c ∈ it'.rest.getLast?, iswhitespace c = false := by
        intro d hd
        apply hlast
        rw [hq, ← List.append_assoc, List.getLast?_append, hd]
        rfl
      have hlen : it'.rest.length ≤ n := by
        have hpos : 0 < t.2.length := List.length_pos_of_mem (List.mem_of_getLast? hc)
        have hlen := congrArg List.length hq
        rw [List.length_append, List.length_append] at hlen
        omega
      have hlmore : Left Lexeme Apart (it.more s).cur (it.more s).top (it.more s).rest ts := hl
      have hgoes : Iter.Goes (it.more s) (it.more s).next ts :=
        (Iter.left_goes hlmore herr).resolve_left fun h => not_blank hr hlast s h.2.2.2
      rw [hmore s hs.stops] at hgoes
      obtain ⟨ts', -, -, herr', hl', -⟩ := hgoes
      have hrest : Left Lexeme Apart it'.cur it'.top (it'.rest ++ s) ts' := hl'
      obtain ⟨htrue, hnot⟩ := ih hrest (herr'.trans herr) hlast' hlen
      constructor
      · rw [Iter.valid_next hr, hnext, if_neg fun h => hvalid h.1]
        exact htrue
      · intro us hus
        have hgoes : Iter.Goes it it.next us := (Iter.left_goes hus herr).resolve_left fun h =>
          not_blank hr hlast [] (by rw [List.append_nil]; exact h.2.2.2)
        rw [hnext] at hgoes
        obtain ⟨us', -, -, -, hus', -⟩ := hgoes
        exact hnot us' hus'

theorem left_valid {it : Iter} (hl : Left Lexeme Apart it.cur it.top it.rest ts)
    (herr : it.err = none)
    (hn : it.rest.length ≤ n) : it.valid n = some true := by
  induction n generalizing it ts with
  | zero => exact Iter.valid_eof (List.eq_nil_of_length_eq_zero (Nat.le_zero.1 hn)) 0
  | succ n ih =>
    by_cases hr : it.rest = []
    · exact Iter.valid_eof hr _
    · rw [Iter.valid_next hr]
      obtain ⟨-, hcur, -, hblank⟩ | ⟨_, -, hvalid, herr', hl', hlt⟩ := Iter.left_goes hl herr
      · rw [Iter.next_blank hblank herr hcur, if_neg (by simp)]
        exact Iter.valid_eof rfl n
      · rw [if_neg fun h => hvalid h.1]
        exact ih hl' (herr'.trans herr) (Nat.le_of_lt_succ (Nat.lt_of_lt_of_le hlt hn))

theorem Cut.valid (h : Cut data) (hn : data.length ≤ n) :
    Valid n data = some true ∧ ∀ ts, ¬ Text Lexeme Apart data ts := by
  obtain ⟨hlast, s, ts, hclose, htext⟩ := h
  have hnot : Iter.valid n (.new data) = some true ∧ ∀ us, ¬ Left Lexeme Apart 0 [] data us :=
    htext.elim
      (fun ht => foreign_valid hclose.foreign hclose.1 (.start ht) rfl hlast hn)
      fun ht => foreign_valid hclose.foreign_colon nofun (.start ht) rfl hlast hn
  exact ⟨hnot.1, fun us hus => hnot.2 us (.start hus)⟩

/-- `Valid` ends, and accepts the texts and the data that is cut. -/
theorem valid_eq (data : List UInt8) (hn : data.length ≤ n) : ∃ b, Valid n data = some b ∧
    (b = true ↔ (∃ ts, Text Lexeme Apart data ts) ∨ Cut data) := by
  obtain ⟨b, hb⟩ : ∃ b, (Iter.new data).valid n = some b := Iter.valid_total hn
  refine ⟨b, hb, fun htrue => ?_, fun h => ?_⟩
  · subst htrue
    rcases valid_left hb (sane_new data) with ⟨ts, hl⟩ | ⟨hlast, s, ts, hclose, hl⟩
    · cases hl with
      | start ht => exact .inl ⟨ts, ht⟩
    · refine .inr ⟨hlast, s, ts, hclose, hl.imp ?_ ?_⟩
      · rintro ⟨ht⟩
        exact ht
      · rintro ⟨ht⟩
        exact ht
  · have htrue : Valid n data = some true :=
      h.elim (fun ⟨_, ht⟩ => left_valid (.start ht) rfl hn) fun hcut => (hcut.valid hn).1
    exact Option.some.inj (hb.symm.trans htrue)

/-- `Valid` ends, and it accepts only values with whitespace between them exactly if the data is
not cut and no two values in it touch. -/
theorem valid_spaced_iff (data : List UInt8) (hn : data.length ≤ n) :
    ∃ b, Valid n data = some b ∧ ((b = true → Spaced data) ↔ ¬ Cut data ∧ ¬ Touching data) := by
  obtain ⟨b, hb, hiff⟩ := valid_eq data hn
  refine ⟨b, hb, fun hspaced => ⟨fun hcut => ?_, fun htouch => ?_⟩,
    fun ⟨hcut, htouch⟩ htrue => ?_⟩
  · obtain ⟨ts, ht⟩ := (hspaced (hiff.2 (.inr hcut))).text
    exact (hcut.valid hn).2 ts ht
  · exact (hspaced (hiff.2 (.inl htouch.text))).not_touching htouch
  · obtain ⟨ts, ht⟩ := (hiff.1 htrue).resolve_right hcut
    exact (text_spaced_or_touching ht).resolve_right htouch

def twoValues : List UInt8 := memberText ++ ch ' ' :: literal .true

theorem valid_spaced_iff_two : ∃ b, Valid 25 twoValues = some b ∧
    ((b = true → Spaced twoValues) ↔ ¬ Cut twoValues ∧ ¬ Touching twoValues) :=
  valid_spaced_iff twoValues (Nat.le_refl 25)

/-- An array that is not closed is valid, and so is a minus sign right behind a number. -/
theorem valid_unclosed : (Valid 1 [ch '['] = some true ∧ ¬ Spaced [ch '[']) ∧
    Valid 3 [ch '1', ch '-', ch '2'] = some true ∧ ¬ Spaced [ch '1', ch '-', ch '2'] := by
  refine ⟨⟨rfl, fun hs => ?_⟩, rfl, fun hs => ?_⟩
  · have hbracket : Closers [ch ']'] := ⟨nofun, List.forall_mem_singleton.2 (.inl rfl)⟩
    have hcut : Cut [ch '['] :=
      ⟨fun c hc => Option.some.inj hc ▸ rfl, [ch ']'], _, hbracket,
        .inl (.cons blank_nil (.emptyArray blank_nil) nofun (.nil blank_nil))⟩
    obtain ⟨ts, ht⟩ := hs.text
    exact (hcut.valid (Nat.le_refl 1)).2 ts ht
  · have hone : Value Lexeme [ch '1'] [(.number, [ch '1'])] :=
      .scalar rfl (.number (.digit rfl .done))
    have htwo : Value Lexeme [ch '-', ch '2'] [(.number, [ch '-', ch '2'])] :=
      .scalar rfl (.minus (.digit rfl .done))
    have htext : Text Lexeme Apart [ch '-', ch '2'] _ :=
      .cons blank_nil htwo nofun (.nil blank_nil)
    exact hs.not_touching (.here blank_nil hone rfl (fun _ _ => rfl) htext)

end Misc.Jsoniter
