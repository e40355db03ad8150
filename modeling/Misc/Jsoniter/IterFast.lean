import Mathlib.Data.List.TakeWhile
import Misc.Jsoniter.Completeness

namespace Misc.Jsoniter
set_option autoImplicit true

/-- `rest` is `data[i:]`. -/
structure IterFast where
  rest : List UInt8
  deriving DecidableEq, Repr

def isuseless (c : UInt8) : Bool := iswhitespace c || c == ch ':' || c == ch ','

def isnumber (c : UInt8) : Bool :=
  isdigit c || c == ch '-' || c == ch '.' || c == ch 'e' || c == ch 'E'

namespace IterFast

def new (data : List UInt8) : IterFast := ⟨data⟩

def eof (it : IterFast) : Bool := it.rest.isEmpty

def part (it : IterFast) (kind : Kind) (n : Nat) : IterFast × Token :=
  (⟨it.rest.drop n⟩, (kind, it.rest.take n))

def skipuseless (it : IterFast) : IterFast := ⟨it.rest.dropWhile isuseless⟩

def readstring (it : IterFast) : IterFast × Token :=
  match scanString (it.rest.headD 0) it.rest.tail with
  | some n => it.part .string (n + 1)
  | none => (it, (.invalid, it.rest))

def readnumber (it : IterFast) : IterFast × Token :=
  it.part .number (it.rest.takeWhile isnumber).length

def readliteral (it : IterFast) (kind : Kind) (expected : Nat) : IterFast × Token :=
  if it.rest.length ≤ expected then (it, (.invalid, it.rest)) else it.part kind expected

def next (it : IterFast) : IterFast × Token :=
  let it := it.skipuseless
  match it.rest with
  | [] => (it, (.invalid, []))
  | c :: _ =>
    if c = ch 'n' then it.readliteral .null 4
    else if c = ch 't' then it.readliteral .true 4
    else if c = ch 'f' then it.readliteral .false 5
    else if c = ch '"' then it.readstring
    else if c = ch '\x7b' then it.part .object 1
    else if c = ch '\x7d' then it.part .closeObject 1
    else if c = ch '[' then it.part .array 1
    else if c = ch ']' then it.part .closeArray 1
    else if isdigit c || c == ch '-' then it.readnumber
    else (it, (.invalid, [c]))

def tokens (data : List UInt8) : List Token × IterFast :=
  collect eof next data.length (.new data)

end IterFast

def Useless (w : List UInt8) : Prop := ∀ c ∈ w, isuseless c = true

/-- The bytes of one token, scalar or not. -/
inductive Piece : Kind → List UInt8 → Prop
  | scalar : Lexeme kind p → Piece kind p
  | object : Piece .object [ch '\x7b']
  | closeObject : Piece .closeObject [ch '\x7d']
  | array : Piece .array [ch '[']
  | closeArray : Piece .closeArray [ch ']']

/-- The data is the tokens one after another, with whitespace and separators between them. -/
inductive Spread : List UInt8 → List Token → Prop
  | nil : Useless w → Spread w []
  | cons : Useless w → Piece kind p → (kind = .number → Stops b) → Spread b ts →
      Spread (w ++ (p ++ b)) ((kind, p) :: ts)

theorem useless_nil : Useless [] := nofun

theorem Useless.append (h : Useless w) (h' : Useless w') : Useless (w ++ w') := by
  intro c hc
  rcases List.mem_append.1 hc with hc | hc
  · exact h c hc
  · exact h' c hc

theorem Blank.useless (h : Blank w) : Useless w := fun c hc => by simp [isuseless, h c hc]

theorem Spread.useless (h : Spread b ts) (hw : Useless w) : Spread (w ++ b) ts := by
  cases h with
  | nil hw' => exact .nil (hw.append hw')
  | cons hw' hp hb hs =>
    rw [← List.append_assoc]
    exact .cons (hw.append hw') hp hb hs

theorem Spread.piece (h : Spread b ts) (hp : Piece kind p) (hb : kind = .number → Stops b) :
    Spread (p ++ b) ((kind, p) :: ts) :=
  .cons useless_nil hp hb h

theorem Spread.separated (h : Spread b ts) (hw : Blank w) (hw' : Blank w')
    (hc : isuseless c = true) : Spread (w ++ (c :: (w' ++ b))) ts := by
  have hsep : Useless (w ++ [c]) := hw.useless.append (by simpa [Useless] using hc)
  have hall := (h.useless hw'.useless).useless hsep
  rwa [List.append_assoc] at hall

mutual

theorem Value.spread (h : Value Lexeme v ts) (hb : ∀ p, ts = [(.number, p)] → Stops b)
    (hs : Spread b us) : Spread (v ++ b) (ts ++ us) :=
  match h with
  | .scalar _ hlex => hs.piece (.scalar hlex) fun hk => hb v (hk ▸ rfl)
  | .emptyArray hw => by
    have hall := ((hs.piece .closeArray nofun).useless hw.useless).piece .array nofun
    rw [List.cons_append, List.append_assoc]
    exact hall
  | .array hw hv he => by
    have hin := (hv.spread (fun _ _ => arrayEnd_stops he b) (he.spread hs)).useless hw.useless
    have hall := hin.piece .array nofun
    simp only [List.cons_append, List.append_assoc]
    exact hall
  | .emptyObject hw => by
    have hall := ((hs.piece .closeObject nofun).useless hw.useless).piece .object nofun
    rw [List.cons_append, List.append_assoc]
    exact hall
  | .object hw hm he => by
    have hin := (hm.spread (objectEnd_stops he b) (he.spread hs)).useless hw.useless
    have hall := hin.piece .object nofun
    simp only [List.cons_append, List.append_assoc]
    exact hall

theorem ArrayEnd.spread (h : ArrayEnd Lexeme v ts) (hs : Spread b us) :
    Spread (v ++ b) (ts ++ us) :=
  match h with
  | .close hw => by
    rw [List.append_assoc]
    exact (hs.piece .closeArray nofun).useless hw.useless
  | .more hw hw' hv he => by
    have hin := hv.spread (fun _ _ => arrayEnd_stops he b) (he.spread hs)
    simp only [List.cons_append, List.append_assoc]
    exact hin.separated hw hw' rfl

theorem Member.spread (h : Member Lexeme v ts) (hb : Stops b) (hs : Spread b us) :
    Spread (v ++ b) (ts ++ us) :=
  match h with
  | .mk hk hw hw' hv => by
    have hin := (hv.spread (fun _ _ => hb) hs).separated (c := ch ':') hw hw' rfl
    simp only [List.cons_append, List.append_assoc]
    exact hin.piece (.scalar hk) nofun

theorem ObjectEnd.spread (h : ObjectEnd Lexeme v ts) (hs : Spread b us) :
    Spread (v ++ b) (ts ++ us) :=
  match h with
  | .close hw => by
    rw [List.append_assoc]
    exact (hs.piece .closeObject nofun).useless hw.useless
  | .more hw hw' hm he => by
    have hin := hm.spread (objectEnd_stops he b) (he.spread hs)
    simp only [List.cons_append, List.append_assoc]
    exact hin.separated hw hw' rfl

end

theorem Text.spread (h : Text Lexeme Apart b ts) : Spread b ts := by
  induction h with
  | nil hw => exact .nil hw.useless
  | cons hw hv hfar ht ih =>
    exact (hv.spread (fun p hp => text_stops ht (hfar p hp)) ih).useless hw.useless

/-- No number is directly followed by a minus sign, and something follows each literal. -/
def Clear : List UInt8 → List Token → Prop
  | _, [] => True
  | b, t :: ts =>
    let b' := (b.dropWhile isuseless).drop t.2.length
    (t.1 = .number → b'.head? ≠ some (ch '-')) ∧
      (t.1 = .null ∨ t.1 = .true ∨ t.1 = .false → b' ≠ []) ∧ Clear b' ts

theorem dropWhile_useless (hw : Useless w) (hc : isuseless c = false) :
    (w ++ (c :: b)).dropWhile isuseless = c :: b := by
  rw [List.dropWhile_append_of_pos hw, List.dropWhile_cons_of_neg (by simp [hc])]

theorem piece_first (h : Piece kind p) : ∃ c q, p = c :: q ∧ isuseless c = false := by
  cases h with
  | scalar h =>
    cases h with
    | null | true | false | string => exact ⟨_, _, rfl, rfl⟩
    | number hn =>
      obtain ⟨c, q, rfl, hc⟩ := Iter.lexeme_number_first (.number hn)
      refine ⟨c, q, rfl, ?_⟩
      obtain ⟨hw, -⟩ := first_digit hc
      have hcolon : c ≠ ch ':' := by rintro rfl; revert hc; decide
      have hcomma : c ≠ ch ',' := by rintro rfl; revert hc; decide
      simp [isuseless, hw, hcolon, hcomma, -ch]
    | minus hn => exact ⟨_, _, rfl, rfl⟩
  | object | closeObject | array | closeArray => exact ⟨_, _, rfl, rfl⟩

theorem piece_valid (h : Piece kind p) : kind ≠ .invalid := by
  cases h with
  | scalar h =>
    have hk := isScalar_of_lexeme h
    rintro rfl
    cases hk
  | object | closeObject | array | closeArray => exact nofun

namespace IterFast

theorem next_skip (hw : Useless w) (hc : isuseless c = false) :
    next ⟨w ++ (c :: b)⟩ = next ⟨c :: b⟩ := by
  have hnil := dropWhile_useless useless_nil hc (b := b)
  rw [next, next, skipuseless, skipuseless]
  simp only [dropWhile_useless hw hc]
  rw [List.nil_append] at hnil
  simp only [hnil]

theorem numeral_isnumber (h : Numeral digit isfrac isexp p) : ∀ c ∈ p, isnumber c = true := by
  induction h with
  | done => exact nofun
  | digit hc _ ih => exact List.forall_mem_cons.2 ⟨by simp [isnumber, hc], ih⟩
  | frac _ ih => exact List.forall_mem_cons.2 ⟨rfl, ih⟩
  | exp hc _ ih =>
    exact List.forall_mem_cons.2 ⟨by rcases hc with rfl | rfl <;> rfl, ih⟩
  | minus hc _ ih =>
    exact List.forall_mem_cons.2 ⟨by rcases hc with rfl | rfl <;> rfl,
      List.forall_mem_cons.2 ⟨rfl, ih⟩⟩

theorem lexeme_isnumber (h : Lexeme .number p) : ∀ c ∈ p, isnumber c = true := by
  cases h with
  | number hn => exact numeral_isnumber hn
  | minus hn => exact List.forall_mem_cons.2 ⟨rfl, numeral_isnumber hn⟩

theorem takeWhile_isnumber (hp : ∀ c ∈ p, isnumber c = true) (hb : Stops b) :
    (p ++ b).takeWhile isnumber = p ↔ b.head? ≠ some (ch '-') := by
  rw [List.takeWhile_append_of_pos hp, List.append_right_eq_self]
  cases b with
  | nil => simp
  | cons c b =>
    obtain ⟨hd, hdot, he, hE⟩ := hb c rfl
    have hiff : isnumber c = false ↔ c ≠ ch '-' := by
      simp [isnumber, hd, hdot, he, hE, -ch]
    rw [List.takeWhile_cons, List.head?_cons, ne_eq, Option.some.injEq, ← ne_eq, ← hiff]
    cases isnumber c <;> simp

theorem next_cons (hc : isuseless c = false) (b : List UInt8) :
    skipuseless ⟨c :: b⟩ = ⟨c :: b⟩ := by
  rw [skipuseless, List.dropWhile_cons_of_neg (by simp [hc])]

theorem part_append (p b : List UInt8) (kind : Kind) (hn : n = p.length) :
    part ⟨p ++ b⟩ kind n = (⟨b⟩, (kind, p)) := by
  rw [part, hn, List.take_left, List.drop_left]

/-- What `Clear` asks of the first token. -/
def ClearOf (kind : Kind) (b : List UInt8) : Prop :=
  (kind = .number → b.head? ≠ some (ch '-')) ∧
    (kind = .null ∨ kind = .true ∨ kind = .false → b ≠ [])

theorem readliteral_clear (hk : k = .null ∨ k = .true ∨ k = .false)
    (hnext : next ⟨literal k ++ b⟩ = readliteral ⟨literal k ++ b⟩ k (literal k).length) :
    (ClearOf k b → next ⟨literal k ++ b⟩ = (⟨b⟩, (k, literal k))) ∧
      (¬ ClearOf k b → (next ⟨literal k ++ b⟩).2 ≠ (k, literal k)) := by
  rw [hnext, readliteral, part_append _ _ _ rfl]
  cases b with
  | nil =>
    have hshort : (literal k ++ []).length ≤ (literal k).length := by simp
    rw [if_pos hshort]
    refine ⟨fun h => absurd rfl (h.2 hk), fun _ h => ?_⟩
    cases h
    simp at hk
  | cons c b =>
    have hlong : ¬ (literal k ++ c :: b).length ≤ (literal k).length := by simp
    rw [if_neg hlong]
    refine ⟨fun _ => rfl, fun h => absurd ⟨fun hn => ?_, fun _ => by simp⟩ h⟩
    rw [hn] at hk
    simp at hk

theorem next_number (hp : Lexeme .number p) (b : List UInt8) :
    next ⟨p ++ b⟩ = part ⟨p ++ b⟩ .number ((p ++ b).takeWhile isnumber).length := by
  obtain ⟨c, q, rfl, hu⟩ := piece_first (.scalar hp)
  obtain ⟨c', q', heq, hc⟩ := Iter.lexeme_number_first hp
  cases heq
  obtain ⟨h₁, h₂, h₃, h₄, h₅, h₆⟩ := Iter.digit_or_minus_ne hc
  obtain ⟨-, -, -, -, h₇, h₈⟩ := first_digit hc
  rw [next, List.cons_append, next_cons hu]
  simp only [if_neg h₁, if_neg h₂, if_neg h₃, if_neg h₄, if_neg h₅,
    if_neg h₆, if_neg h₇, if_neg h₈]
  rw [if_pos (by simpa using hc)]
  rfl

theorem number_clear (hp : Lexeme .number p) (hb : Stops b) :
    (ClearOf .number b → next ⟨p ++ b⟩ = (⟨b⟩, (.number, p))) ∧
      (¬ ClearOf .number b → (next ⟨p ++ b⟩).2 ≠ (.number, p)) := by
  have htake := takeWhile_isnumber (lexeme_isnumber hp) hb
  rw [next_number hp]
  constructor
  · intro h
    rw [part_append p b .number (by rw [htake.2 (h.1 rfl)])]
  · intro h heq
    have hpart : (p ++ b).take ((p ++ b).takeWhile isnumber).length = p := (Prod.mk.inj heq).2
    rw [← List.prefix_iff_eq_take.1 (List.takeWhile_prefix _)] at hpart
    exact h ⟨fun _ => htake.1 hpart, by simp⟩

theorem readstring_append (hs : scanString (ch '"') s = some s.length) (b : List UInt8) :
    next ⟨(ch '"' :: s) ++ b⟩ = (⟨b⟩, (.string, ch '"' :: s)) := by
  have hnext : next ⟨(ch '"' :: s) ++ b⟩ = readstring ⟨(ch '"' :: s) ++ b⟩ := rfl
  rw [hnext, readstring, List.cons_append, List.headD_cons, List.tail_cons, scanString_append hs]
  exact part_append (ch '"' :: s) b .string rfl

theorem next_piece (hp : Piece kind p) (hb : kind = .number → Stops b) :
    (ClearOf kind b → next ⟨p ++ b⟩ = (⟨b⟩, (kind, p))) ∧
      (¬ ClearOf kind b → (next ⟨p ++ b⟩).2 ≠ (kind, p)) := by
  cases hp with
  | scalar hlex =>
    cases hlex with
    | null => exact readliteral_clear (by simp) rfl
    | true => exact readliteral_clear (by simp) rfl
    | false => exact readliteral_clear (by simp) rfl
    | string hs => exact ⟨fun _ => readstring_append hs b, fun h => absurd ⟨by simp, by simp⟩ h⟩
    | number hn => exact number_clear (.number hn) (hb rfl)
    | minus hn => exact number_clear (.minus hn) (hb rfl)
  | object | closeObject | array | closeArray =>
    exact ⟨fun _ => rfl, fun h => absurd ⟨by simp, by simp⟩ h⟩

/-- The fast iterator returns the tokens that the data is made of exactly when all are clear. -/
theorem collect_clear (h : Spread b ts) (hn : b.length ≤ n) :
    (collect eof next n ⟨b⟩).1 = ts ↔ Clear b ts := by
  induction h generalizing n with
  | @nil w hw =>
    have hskip : skipuseless ⟨w⟩ = ⟨[]⟩ := by
      have hnil : w.dropWhile isuseless = [] := List.dropWhile_eq_nil_iff.2 hw
      rw [skipuseless, hnil]
    have hnext : next ⟨w⟩ = (⟨[]⟩, (.invalid, [])) := by rw [next, hskip]
    refine iff_of_true ?_ trivial
    cases n with
    | zero => rfl
    | succ n =>
      rw [collect, hnext]
      split_ifs <;> rfl
  | @cons w kind p b ts hw hp hb hs ih =>
    obtain ⟨c, q, rfl, hc⟩ := piece_first hp
    have hdrop : ((w ++ ((c :: q) ++ b)).dropWhile isuseless).drop (c :: q).length = b := by
      rw [List.cons_append, dropWhile_useless hw hc, ← List.cons_append, List.drop_left]
    have hlen : (c :: q).length + b.length ≤ n := by
      simp only [List.length_append] at hn
      omega
    rw [List.length_cons] at hlen
    obtain ⟨m, rfl⟩ : ∃ m, n = m + 1 := ⟨n - 1, by omega⟩
    have heof : ¬ eof ⟨w ++ ((c :: q) ++ b)⟩ = true := by simp [eof]
    have hnext : next ⟨w ++ ((c :: q) ++ b)⟩ = next ⟨(c :: q) ++ b⟩ := next_skip hw hc
    obtain ⟨hyes, hno⟩ := next_piece hp hb
    rw [collect, if_neg heof, hnext, Clear]
    simp only [hdrop]
    by_cases hclear : ClearOf kind b
    · have hiff := ih (n := m) (by omega)
      rw [hyes hclear]
      split
      · next heq =>
        cases heq
        exact absurd rfl (piece_valid hp)
      · next heq =>
        cases heq
        rw [List.cons.injEq, and_iff_right rfl, hiff]
        exact ⟨fun h => ⟨hclear.1, hclear.2, h⟩, fun h => h.2.2⟩
    · have hne := hno hclear
      refine iff_of_false ?_ fun h => hclear ⟨h.1, h.2.1⟩
      generalize next ⟨(c :: q) ++ b⟩ = r at hne
      obtain ⟨it, k, part⟩ := r
      intro h
      split at h
      · cases h
      · next heq =>
        cases heq
        exact hne (List.cons.inj h).1

end IterFast

/-- Where the checking iterator reads the data to its end, the fast one returns the same tokens
exactly when no number is directly followed by a minus sign and no literal ends the data. -/
theorem fast_tokens_iff (h : Iter.tokens data = (ts, it)) (hrest : it.rest = [])
    (herr : it.err = none) (hcur : it.cur = 0) :
    (IterFast.tokens data).1 = ts ↔ Clear data ts :=
  IterFast.collect_clear (tokens_text h hrest herr hcur).spread (Nat.le_refl _)

theorem fast_tokens_member :
    (IterFast.tokens memberText).1 = memberTokens ↔ Clear memberText memberTokens :=
  fast_tokens_iff tokens_member rfl rfl rfl

/-- The fast iterator does not read a literal that ends the data. -/
theorem fast_tokens_literal : ¬ ∀ data ts it, Iter.tokens data = (ts, it) → it.rest = [] →
    it.err = none → it.cur = 0 → (IterFast.tokens data).1 = ts := by
  intro h
  have hrun : Iter.tokens (literal .null) =
      ([(.null, literal .null)], ⟨[], 4, 0, [], none⟩) := by decide
  have hfast : (IterFast.tokens (literal .null)).1 = [] := by decide
  have heq := h _ _ _ hrun rfl rfl rfl
  rw [hfast] at heq
  cases heq

end Misc.Jsoniter
