import Misc.Jsoniter.IterFast
import Misc.Jsoniter.Unescape
import Misc.Jsonpb.Protobuf

namespace Misc.Jsonpb
open Misc.Jsoniter
set_option autoImplicit true

inductive Jsonkind
  | invalid
  | null
  | false
  | true
  | number
  | string
  | array
  | object
  deriving DecidableEq, Repr

def Jsonkind.toNat : Jsonkind → Nat
  | .invalid => 0
  | .null => 1
  | .false => 2
  | .true => 3
  | .number => 4
  | .string => 5
  | .array => 6
  | .object => 7

/-- An opener and a closer are of one kind. -/
def jsonkind : Kind → Jsonkind
  | .null => .null
  | .false => .false
  | .true => .true
  | .number => .number
  | .string => .string
  | .array | .closeArray => .array
  | .object | .closeObject => .object
  | .invalid | .opener | .closer => .invalid

/-- What `Error` of an error returns. -/
def errorText : Err → String
  | .unexpectedEOF => "unexpected EOF"
  | .eof => "EOF"
  | .error _ reason => reason

/-- `next` of this package, whose iterator is that of `jsoniter` but for the kinds and for the
end of the data. -/
def next (it : Iter) : Iter × Jsonkind × List UInt8 :=
  if it.err.isSome then (it, .invalid, [])
  else
    match it.skipwhitespace with
    | (it, true) => (if it.cur = 0 then { it with err := some .eof } else it, .invalid, [])
    | (it, false) =>
      match it.state with
      | (it, (kind, part)) => (it, jsonkind kind, part)

/-- `strconv.ParseFloat`: the bits of the float, which is infinite for a number that is too
large, and the text of the error. -/
structure Strconv where
  parseFloat : List UInt8 → UInt64 × Option String

def digits (s : List UInt8) : Option Nat :=
  if s = [] then none
  else s.foldlM (fun n c => if isdigit c then some (10 * n + (c - ch '0').toNat) else none) 0

/-- `strconv.ParseInt` in base 10 with 64 bits. -/
def parseInt (s : List UInt8) : Option Int :=
  let r := if s.head? = some (ch '-') ∨ s.head? = some (ch '+') then s.tail else s
  (digits r).bind fun n =>
    if s.head? = some (ch '-') then if n ≤ 2 ^ 63 then some (-n) else none
    else if n < 2 ^ 63 then some n else none

/-- `uint64(x)`. -/
def toUint64 (x : Int) : UInt64 := (Int64.ofInt x).toUInt64

def mapnumber (lib : Strconv) (field : Nat) (s : List UInt8) : Except Fault (List UInt8) :=
  match parseInt s with
  | some x => .ok (emitVarint field (toUint64 x))
  | none =>
    match lib.parseFloat s with
    | (f, none) => .ok (emitFixed64 field f)
    | (_, some err) => .error (.error err)

/-- The `switch` of `MapJsonPB`, with what it writes. -/
def mapvalue (lib : Strconv) (field : Nat) (valkind : Jsonkind) (valdata : List UInt8) :
    Except Fault (List UInt8) :=
  match valkind with
  | .string => do
    let b ← UnescapeString valdata
    return if b.length ≠ 0 then emitLenDelim field b else []
  | .number => mapnumber lib field valdata
  | .true => .ok (emitVarint field 1)
  | .array => .error (.error "unsupport array kind")
  | .object => .error (.error "unsupport object kind")
  | _ => .ok []

/-- What the loop of `MapJsonPB` does with two tokens. The key is a slice from 1 to its length
less one. -/
def mappair (lib : Strconv) (fields : List UInt8 → Option Nat) (keydata : List UInt8)
    (valkind : Jsonkind) (valdata : List UInt8) : Except Fault (List UInt8) :=
  if keydata.length < 2 then .error .panic
  else
    match fields keydata.tail.dropLast with
    | some field => mapvalue lib field valkind valdata
    | none => .ok []

def mappairs (lib : Strconv) (fields : List UInt8 → Option Nat) :
    Nat → Iter → List UInt8 → Option (Except Fault (List UInt8))
  | 0, _, _ => none
  | n + 1, it, out =>
    match next it with
    | (it, keykind, keydata) =>
      if keykind = .object then some (.ok out)
      else
        match next it with
        | (it, valkind, valdata) =>
          if keykind = .invalid ∨ valkind = .invalid then
            match it.err with
            | some err => some (.error (.error (errorText err)))
            | none => some (.ok [])
          else
            match mappair lib fields keydata valkind valdata with
            | .ok b => mappairs lib fields n it (out ++ b)
            | .error err => some (.error err)

/-- The result of `MapJsonPB`. Each round of its loop reads a byte at least. -/
def mapJsonPB (lib : Strconv) (fields : List UInt8 → Option Nat) (data : List UInt8) :
    Option (Except Fault (List UInt8)) :=
  match next (.new data) with
  | (it, kind, _) =>
    if kind = .object then mappairs lib fields (data.length + 1) it []
    else some (.error (.error ("unexpected kind: " ++ toString kind.toNat)))

/-- What follows a member of an object, with the tokens of each member. -/
inductive Members (lex : Kind → List UInt8 → Prop) : List UInt8 → List (List Token) → Prop
  | close : Blank w → Members lex (w ++ [ch '\x7d']) []
  | more : Blank w → Blank w' → Member lex m ts → Members lex b mss →
      Members lex (w ++ (ch ',' :: (w' ++ (m ++ b)))) (ts :: mss)

/-- A JSON text that is an object, with the tokens of each member. -/
inductive IsObject : List UInt8 → List (List Token) → Prop
  | empty : Blank w → Blank w₁ → Blank w' →
      IsObject (w ++ ((ch '\x7b' :: (w₁ ++ [ch '\x7d'])) ++ w')) []
  | members : Blank w → Blank w₁ → Member Rfc m ts → Members Rfc b mss → Blank w' →
      IsObject (w ++ ((ch '\x7b' :: (w₁ ++ (m ++ b))) ++ w')) (ts :: mss)

/-- The value of a field for a number: a varint for an integer of 64 bits, or a double. -/
def number (lib : Strconv) (part : List UInt8) : Wire :=
  match parseInt part with
  | some x => .varint (toUint64 x)
  | none => .fixed64 (lib.parseFloat part).1

/-- The value that a token has as a field. -/
def wire (lib : Strconv) : Token → Option Wire
  | (.string, part) => if text part = [] then none else some (.bytes (text part))
  | (.number, part) => some (number lib part)
  | (.true, _) => some (.varint 1)
  | _ => none

def member (lib : Strconv) (fields : List UInt8 → Option Nat) : List Token → List Field
  | [(_, key), t] =>
    match fields (text key), wire lib t with
    | some num, some value => [⟨num, value⟩]
    | _, _ => []
  | _ => []

/-- Each value that a member maps is one token. -/
def Scalars (fields : List UInt8 → Option Nat) (mss : List (List Token)) : Prop :=
  ∀ key t us, (Kind.string, key) :: t :: us ∈ mss →
    fields (text key) ≠ none → isScalar t.1 = true

/-- The result, read by a parser of the wire format, is the fields of the members. -/
def MapsRight (lib : Strconv) (fields : List UInt8 → Option Nat) (data : List UInt8)
    (mss : List (List Token)) : Prop :=
  ∃ out, mapJsonPB lib fields data = some (.ok out) ∧
    parse out = some (mss.flatMap (member lib fields))

/-- A member whose value is one token. Its key maps with escapes to what it maps without them; a
string that it maps has no escapes of surrogate pairs, and a number that it maps is no float
that is too large. -/
structure Plain (lib : Strconv) (fields : List UInt8 → Option Nat)
    (key : List UInt8) (t : Token) : Prop where
  scalar : isScalar t.1 = true
  raw : fields key.tail.dropLast = fields (text key)
  unpaired : fields (text key) ≠ none → t.1 = .string → Unpaired (units t.2.tail.dropLast)
  finite : fields (text key) ≠ none → t.1 = .number →
    (parseInt t.2).isSome ∨ (lib.parseFloat t.2).2 = none

theorem Members.objectEnd {lex : Kind → List UInt8 → Prop} (h : Members lex b mss) :
    ObjectEnd lex b (mss.flatten ++ [closeObjectToken]) := by
  induction h with
  | close hw => exact .close hw
  | more hw hw' hm _ ih =>
    rw [List.flatten_cons, List.append_assoc]
    exact .more hw hw' hm ih

theorem IsObject.json (h : IsObject data mss) :
    IsJson data (objectToken :: (mss.flatten ++ [closeObjectToken])) := by
  cases h with
  | empty hw hw₁ hw' => exact ⟨_, _, _, hw, .emptyObject hw₁, hw', rfl⟩
  | members hw hw₁ hm hb hw' =>
    refine ⟨_, _, _, hw, ?_, hw', rfl⟩
    rw [List.flatten_cons, List.append_assoc]
    exact .object hw₁ hm hb.objectEnd

theorem json_scalars (h : IsJson data ts) : ∀ t ∈ ts, isScalar t.1 = true → Rfc t.1 t.2 := by
  obtain ⟨_, _, _, _, hv, _, _⟩ := h
  exact hv.scalars

theorem IsObject.text (h : IsObject data mss) (hr : Readable mss.flatten) :
    Text Lexeme Apart data (objectToken :: (mss.flatten ++ [closeObjectToken])) := by
  apply h.json.text
  intro t ht
  rcases List.mem_cons.1 ht with rfl | ht
  · exact ⟨nofun, nofun⟩
  · rcases List.mem_append.1 ht with ht | ht
    · exact hr t ht
    · cases List.mem_singleton.1 ht
      exact ⟨nofun, nofun⟩

theorem spread_length (h : Spread b ts) : ∀ t ∈ ts, t.2.length ≤ b.length := by
  induction h with
  | nil => exact nofun
  | cons _ _ _ _ ih =>
    rw [List.forall_mem_cons, List.length_append, List.length_append]
    constructor
    · dsimp only
      omega
    · intro t ht
      have hle := ih t ht
      omega

section
variable {lib : Strconv} {fields : List UInt8 → Option Nat} {it : Iter} {t : Token}

theorem next_left (hl : Left Lexeme Apart it.cur it.top it.rest (t :: ts))
    (herr : it.err = none) : ∃ it', next it = (it', jsonkind t.1, t.2) ∧ it'.err = none ∧
      Left Lexeme Apart it'.cur it'.top it'.rest ts ∧ it'.rest.length < it.rest.length := by
  obtain ⟨hnil, -⟩ | ⟨us, heq, hinv, herr', hl', hlt⟩ := Iter.left_goes hl herr
  · cases hnil
  · cases heq
    refine ⟨it.next.1, ?_, herr'.trans herr, hl', hlt⟩
    clear hl' hlt herr'
    rw [Iter.next, herr] at hinv ⊢
    rw [next, herr]
    generalize it.skipwhitespace = r at hinv ⊢
    obtain ⟨it', _ | _⟩ := r
    · rfl
    · exact absurd rfl hinv

theorem rfc_string_length (h : Rfc .string p) : 2 ≤ p.length := by
  cases h
  simp

theorem mapnumber_eq {field : Nat} {part : List UInt8}
    (h : (parseInt part).isSome = true ∨ (lib.parseFloat part).2 = none) :
    mapnumber lib field part = .ok (Field.emit ⟨field, number lib part⟩) := by
  rw [mapnumber, number]
  cases hint : parseInt part with
  | some x => rfl
  | none =>
    rw [hint] at h
    have herr := h.resolve_left Bool.false_ne_true
    generalize lib.parseFloat part = r at herr
    obtain ⟨f, err⟩ := r
    cases herr
    rfl

theorem mappair_plain {key : List UInt8} (hp : Plain lib fields key t) (hk : Rfc .string key)
    (ht : Rfc t.1 t.2) : mappair lib fields key (jsonkind t.1) t.2 =
      .ok ((member lib fields [(.string, key), t]).flatMap Field.emit) := by
  obtain ⟨kind, part⟩ := t
  have hlen := rfc_string_length hk
  rw [mappair, if_neg (by omega), hp.raw]
  rw [member]
  cases hf : fields (text key) with
  | none => rfl
  | some field =>
    have hmapped : fields (text key) ≠ none := by
      rw [hf]
      exact Option.some_ne_none field
    dsimp only
    cases kind with
    | string =>
      have htext := unescapeString_text ht (hp.unpaired hmapped rfl)
      dsimp only [jsonkind, mapvalue, wire]
      rw [htext]
      by_cases hnil : text part = []
      · rw [hnil]
        rfl
      · have hne : (text part).length ≠ 0 := fun h0 => hnil (List.eq_nil_of_length_eq_zero h0)
        rw [if_neg hnil]
        dsimp only [bind, Except.bind, pure, Except.pure]
        rw [if_pos hne]
        simp [Field.emit]
    | number =>
      have hnum := hp.finite hmapped rfl
      dsimp only [jsonkind, mapvalue, wire]
      rw [mapnumber_eq hnum]
      simp [Field.emit]
    | true => simp [jsonkind, mapvalue, wire, Field.emit]
    | null | false => rfl
    | invalid | opener | object | array | closer | closeObject | closeArray =>
      exact absurd hp.scalar Bool.false_ne_true

theorem mappairs_plain {n : Nat} {out : List UInt8} {mss : List (List Token)}
    (hl : Left Lexeme Apart it.cur it.top it.rest (mss.flatten ++ [closeObjectToken]))
    (herr : it.err = none) (hn : it.rest.length < n)
    (hp : ∀ ts ∈ mss, ∃ key t, ts = [(.string, key), t] ∧ Plain lib fields key t ∧
      Rfc .string key ∧ Rfc t.1 t.2) :
    mappairs lib fields n it out =
      some (.ok (out ++ (mss.flatMap (member lib fields)).flatMap Field.emit)) := by
  induction mss generalizing n it out with
  | nil =>
    obtain ⟨m, rfl⟩ : ∃ m, n = m + 1 := ⟨n - 1, by omega⟩
    obtain ⟨it₁, hnext, -⟩ := next_left hl herr
    rw [mappairs, hnext]
    simp [jsonkind, closeObjectToken]
  | cons ts mss ih =>
    obtain ⟨⟨key, t, rfl, hplain, hk, ht⟩, hrest⟩ := List.forall_mem_cons.1 hp
    obtain ⟨m, rfl⟩ : ∃ m, n = m + 1 := ⟨n - 1, by omega⟩
    obtain ⟨it₁, hnext₁, herr₁, hl₁, hlt₁⟩ := next_left hl herr
    obtain ⟨it₂, hnext₂, herr₂, hl₂, hlt₂⟩ := next_left hl₁ herr₁
    have hvalid : jsonkind t.1 ≠ .invalid := by
      have hs := hplain.scalar
      intro hk
      revert hs hk
      cases t.1 <;> decide
    rw [mappairs, hnext₁]
    dsimp only
    rw [if_neg (by decide), hnext₂]
    dsimp only
    rw [if_neg (not_or_intro (by decide) hvalid), mappair_plain hplain hk ht]
    dsimp only
    rw [ih hl₂ herr₂ (by omega) hrest, List.flatMap_cons, List.flatMap_append, List.append_assoc]

theorem mapJsonPB_plain (h : IsObject data mss) (hr : Readable mss.flatten)
    (hp : ∀ ts ∈ mss, ∃ key t, ts = [(.string, key), t] ∧ Plain lib fields key t ∧
      Rfc .string key ∧ Rfc t.1 t.2) :
    mapJsonPB lib fields data =
      some (.ok ((mss.flatMap (member lib fields)).flatMap Field.emit)) := by
  have hl : Left Lexeme Apart (Iter.new data).cur (Iter.new data).top (Iter.new data).rest
      (objectToken :: (mss.flatten ++ [closeObjectToken])) := .start (h.text hr)
  obtain ⟨it, hnext, herr, hl, hlt⟩ := next_left hl rfl
  rw [mapJsonPB, hnext]
  dsimp only
  rw [if_pos (by decide),
    mappairs_plain (n := data.length + 1) hl herr (Nat.lt_succ_of_lt hlt) hp]
  rfl

theorem member_fits {data : List UInt8} (hlen : data.length < 2 ^ 63)
    (hf : ∀ k num, fields k = some num → 0 < num ∧ num < 2 ^ 29) {key : List UInt8}
    (hp : Plain lib fields key t) (ht : Rfc t.1 t.2) (hle : t.2.length ≤ data.length) :
    ∀ f ∈ member lib fields [(.string, key), t], f.Fits := by
  intro f hmem
  rw [member] at hmem
  split at hmem
  · next num value hnum hvalue =>
    cases List.mem_singleton.1 hmem
    obtain ⟨hpos, hlt⟩ := hf _ _ hnum
    refine ⟨hpos, hlt, ?_⟩
    rintro v rfl
    obtain ⟨kind, part⟩ := t
    cases kind with
    | string =>
      have hmapped : fields (text key) ≠ none := by
        rw [hnum]
        exact Option.some_ne_none num
      have htext : (text part).length ≤ part.length := text_length ht (hp.unpaired hmapped rfl)
      rw [wire] at hvalue
      split_ifs at hvalue
      cases hvalue
      have hsize : UInt64.size = 2 ^ 64 := rfl
      dsimp only at hle
      omega
    | number =>
      rw [wire, number] at hvalue
      split at hvalue <;> cases hvalue
    | _ => cases hvalue
  · cases hmem

/-- `MapJsonPB` is right for an object text whose tokens the iterator can read and whose members
are plain. -/
theorem maps_plain (lib : Strconv) (fields : List UInt8 → Option Nat) (data : List UInt8)
    (mss : List (List Token)) (h : IsObject data mss) (hlen : data.length < 2 ^ 63)
    (hf : ∀ k num, fields k = some num → 0 < num ∧ num < 2 ^ 29) (hr : Readable mss.flatten)
    (hp : ∀ ts ∈ mss, ∃ key t, ts = [(.string, key), t] ∧ Plain lib fields key t) :
    MapsRight lib fields data mss := by
  have hrfc : ∀ t ∈ mss.flatten, isScalar t.1 = true → Rfc t.1 t.2 := fun t ht =>
    json_scalars h.json t (List.mem_cons_of_mem _ (List.mem_append_left _ ht))
  have hall : ∀ ts ∈ mss, ∃ key t, ts = [(.string, key), t] ∧ Plain lib fields key t ∧
      Rfc .string key ∧ Rfc t.1 t.2 := by
    intro ts hts
    obtain ⟨key, t, rfl, hplain⟩ := hp ts hts
    refine ⟨key, t, rfl, hplain, ?_, ?_⟩
    · exact hrfc (.string, key) (List.mem_flatten.2 ⟨_, hts, List.mem_cons_self⟩) rfl
    · exact hrfc t (List.mem_flatten.2 ⟨_, hts, by simp⟩) hplain.scalar
  refine ⟨_, mapJsonPB_plain h hr hall, parse_emit ?_⟩
  intro f hmem
  obtain ⟨ts, hts, hmem⟩ := List.mem_flatMap.1 hmem
  obtain ⟨key, t, rfl, hplain, -, ht⟩ := hall ts hts
  have htoken : t ∈ objectToken :: (mss.flatten ++ [closeObjectToken]) :=
    List.mem_cons_of_mem _ (List.mem_append_left _ (List.mem_flatten.2 ⟨_, hts, by simp⟩))
  exact member_fits hlen hf hplain ht (spread_length (h.text hr).spread t htoken) f hmem

def quoted (c : Char) : List UInt8 := [ch '"', ch c, ch '"']

theorem rfc_quoted (c : Char) (h : 0x20 ≤ ch c ∧ ch c ≠ ch '"' ∧ ch c ≠ ch '\\') :
    Rfc .string (quoted c) := .string (.unescaped h.1 h.2.1 h.2.2 .nil)

def lineText : List UInt8 := [ch '"', ch 'x', ch '\\', ch 'n', ch '"']
def intText : List UInt8 := [ch '-', ch '1', ch '7']
def floatText : List UInt8 := [ch '2', ch '.', ch '5']

theorem rfc_lineText : Rfc .string lineText :=
  .string (.unescaped (by decide) (by decide) (by decide) (.escape (by decide) .nil))

theorem rfc_intText : Rfc .number intText := by
  have hdigits : Digits [ch '1', ch '7'] :=
    ⟨List.cons_ne_nil _ _, List.forall_mem_cons.2 ⟨rfl, List.forall_mem_singleton.2 rfl⟩⟩
  exact .number (.inr rfl) ⟨hdigits, by decide⟩ (.inl rfl) (.inl rfl)

theorem rfc_floatText : Rfc .number floatText := by
  have hdigit (c : UInt8) (hc : isdigit c = true) : Digits [c] :=
    ⟨List.cons_ne_nil _ _, List.forall_mem_singleton.2 hc⟩
  have hfrac : FracOpt [ch '.', ch '5'] := .inr ⟨_, hdigit (ch '5') rfl, rfl⟩
  exact .number (.inl rfl) ⟨hdigit (ch '2') rfl, by decide⟩ hfrac (.inl rfl)

def strconv : Strconv :=
  ⟨fun s => if s = floatText then (0x4004000000000000, none) else (0, some "invalid syntax")⟩

def abc (key : List UInt8) : Option Nat :=
  if key = [ch 'a'] then some 1 else if key = [ch 'b'] then some 2
  else if key = [ch 'c'] then some 3 else none

def abcMembers : List (List Token) :=
  [[(.string, quoted 'a'), (.string, lineText)], [(.string, quoted 'b'), (.number, intText)],
    [(.string, quoted 'c'), (.number, floatText)],
      [(.string, quoted 'z'), (.true, literal .true)]]

/-- `{"a":"x\n","b":-17, "c":2.5,"z":true}`. -/
def abcText : List UInt8 :=
  ch '\x7b' :: (quoted 'a' ++ (ch ':' :: lineText) ++
    (ch ',' :: (quoted 'b' ++ (ch ':' :: intText) ++
      (ch ',' :: ch ' ' :: (quoted 'c' ++ (ch ':' :: floatText) ++
        (ch ',' :: (quoted 'z' ++ (ch ':' :: literal .true) ++ [ch '\x7d'])))))))

theorem abcText_object : IsObject abcText abcMembers := by
  have hspace : Blank [ch ' '] := List.forall_mem_singleton.2 rfl
  have hkey (c : Char) (h : 0x20 ≤ ch c ∧ ch c ≠ ch '"' ∧ ch c ≠ ch '\\')
      {v : List UInt8} {t : Token}
      (hv : Value Rfc v [t]) : Member Rfc (quoted c ++ (ch ':' :: v)) [(.string, quoted c), t] :=
    .mk (rfc_quoted c h) blank_nil blank_nil hv
  have hz := hkey 'z' (by decide) (.scalar rfl .true)
  have hc := hkey 'c' (by decide) (.scalar rfl rfc_floatText)
  have hb := hkey 'b' (by decide) (.scalar rfl rfc_intText)
  have ha := hkey 'a' (by decide) (.scalar rfl rfc_lineText)
  have hlast := Members.more blank_nil blank_nil hz (.close blank_nil)
  have hrest := Members.more blank_nil blank_nil hb (.more blank_nil hspace hc hlast)
  have hobject := IsObject.members blank_nil blank_nil ha hrest blank_nil
  exact hobject

theorem lineText_unpaired : Unpaired (units lineText.tail.dropLast) :=
  .cons_cons nofun (.singleton _)

theorem maps_plain_abc : MapsRight strconv abc abcText abcMembers := by
  refine maps_plain _ _ _ _ abcText_object (by decide) ?_ (by decide) ?_
  · intro k num h
    rw [abc] at h
    split_ifs at h <;> cases h <;> decide
  · simp only [abcMembers, List.forall_mem_cons]
    refine ⟨⟨_, _, rfl, rfl, by decide, fun _ _ => lineText_unpaired, nofun⟩, ?_, ?_,
      ⟨_, _, rfl, rfl, by decide, nofun, nofun⟩, nofun⟩
    · exact ⟨_, _, rfl, rfl, by decide, nofun, fun _ _ => by decide⟩
    · exact ⟨_, _, rfl, rfl, by decide, nofun, fun _ _ => by decide⟩

/-- In `{"a":[],"b":1}` the closing bracket is taken for a key. -/
theorem maps_panic : ¬ ∀ (lib : Strconv) (fields : List UInt8 → Option Nat) (data : List UInt8)
    (mss : List (List Token)), IsObject data mss → data.length < 2 ^ 63 →
      (∀ k num, fields k = some num → 0 < num ∧ num < 2 ^ 29) → Scalars fields mss →
      MapsRight lib fields data mss := by
  intro h
  have hone : Rfc .number ([] ++ ([ch '1'] ++ ([] ++ []))) :=
    .number (.inl rfl) ⟨⟨nofun, List.forall_mem_singleton.2 rfl⟩, by decide⟩
      (.inl rfl) (.inl rfl)
  have hobj := IsObject.members blank_nil blank_nil
    (.mk (rfc_quoted 'a' (by decide)) blank_nil blank_nil (.emptyArray blank_nil))
    (.more blank_nil blank_nil
      (.mk (rfc_quoted 'b' (by decide)) blank_nil blank_nil (.scalar rfl hone))
      (.close blank_nil)) blank_nil
  have hfields (k : List UInt8) (num : Nat)
      (hk : (if k = [ch 'b'] then some 1 else none) = some num) : 0 < num ∧ num < 2 ^ 29 := by
    rw [Option.ite_none_right_eq_some] at hk
    cases hk.2
    decide
  have hscalars : Scalars (fun k => if k = [ch 'b'] then some 1 else none)
      [[(.string, quoted 'a'), arrayToken, closeArrayToken],
        [(.string, quoted 'b'), (.number, [ch '1'])]] := by
    intro key t us hmem hmapped
    rcases List.mem_cons.1 hmem with heq | hmem
    · cases heq
      exact absurd (by decide) hmapped
    · cases List.mem_singleton.1 hmem
      rfl
  obtain ⟨out, hout, -⟩ := h ⟨fun _ => (0, none)⟩ _ _ _ hobj (by decide) hfields hscalars
  have hpanic : some (Except.error Fault.panic) = some (Except.ok out) := hout
  cases hpanic

end

end Misc.Jsonpb
