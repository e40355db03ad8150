import Misc.Json2go.Converter
import Misc.Json2go.Mapping

namespace Misc.Json2go
set_option autoImplicit true

/-- A writer that fails at nothing and keeps what is written to it. -/
structure Buffer (W : Type) extends Writer W where
  written : W → String
  Write_nil : ∀ w text, (Write w text).1 = none
  written_Write : ∀ w text, written (Write w text).2 = written w ++ text

def Buffer.add (b : Buffer W) (w : W) (text : String) : W := (b.Write w text).2

def Converter.feed (c : Converter W) (tokens : List Token) : Converter W :=
  { c with dec := { c.dec with tokens := tokens ++ c.dec.tokens } }

variable {u : Unicode} {b : Buffer W} {c : Converter W} {n : Nat}

@[simp]
theorem Buffer.written_add (b : Buffer W) (w : W) (text : String) :
    b.written (b.add w text) = b.written w ++ text := b.written_Write w text

theorem Converter.write_eq (text : String) :
    c.write b.toWriter text = (none, { c with w := b.add c.w text }) :=
  Prod.ext (b.Write_nil c.w text) rfl

theorem Converter.feed_append (s t : List Token) : c.feed (s ++ t) = (c.feed t).feed s := by
  rw [feed, feed, feed, List.append_assoc]

theorem Converter.unindent_tab (indent : String) :
    { c with indent := indent ++ "\t" }.unindent = { c with indent } := by
  have htab : (indent ++ "\t").toList.dropLast = indent.toList := by
    rw [String.toList_append]
    exact List.dropLast_concat
  rw [unindent, htab, String.ofList_toList]

mutual

/-- The brackets of a value are balanced. -/
theorem arrayLoop_tokens (err : Err) (v : Json) (deep : Nat) (rest : List Token) :
    arrayLoop err (v.tokens ++ rest) (deep + 1) = arrayLoop err rest (deep + 1) :=
  match v with
  | .null | .bool _ | .number _ | .string _ => rfl
  | .array vs => by
    have helements := arrayLoop_elements err vs (deep + 1) (.Delim .closeBracket :: rest)
    rw [Json.tokens, List.cons_append, List.append_assoc]
    exact helements
  | .object ms => by
    have hmembers := arrayLoop_members err ms deep (.Delim .closeBrace :: rest)
    rw [Json.tokens, List.cons_append, List.append_assoc]
    exact hmembers

theorem arrayLoop_elements (err : Err) (vs : List Json) (deep : Nat) (rest : List Token) :
    arrayLoop err (elements vs ++ rest) (deep + 1) = arrayLoop err rest (deep + 1) :=
  match vs with
  | [] => rfl
  | v :: vs => by
    rw [elements, List.append_assoc, arrayLoop_tokens err v, arrayLoop_elements err vs]

theorem arrayLoop_members (err : Err) (ms : List (String × Json)) (deep : Nat)
    (rest : List Token) :
    arrayLoop err (members ms ++ rest) (deep + 1) = arrayLoop err rest (deep + 1) :=
  match ms with
  | [] => rfl
  | (key, v) :: ms => by
    have htokens := arrayLoop_tokens err v deep (members ms ++ rest)
    rw [members, List.cons_append, List.append_assoc]
    exact htokens.trans (arrayLoop_members err ms deep rest)

end

theorem arrayLoop_rest (err : Err) (vs : List Json) (rest : List Token) :
    arrayLoop err (elements vs ++ [.Delim .closeBracket] ++ rest) 1 = (none, rest) := by
  rw [List.append_assoc, arrayLoop_elements]
  cases rest <;> rfl

theorem nextType_single {t : Token} (hn : 2 * [t].length ≤ n)
    (h : ∀ m, nextType u b.toWriter (m + 1) (c.feed [t]) = some (c.write b.toWriter text)) :
    nextType u b.toWriter n (c.feed [t]) = some (none, { c with w := b.add c.w text }) := by
  rw [List.length_singleton] at hn
  obtain ⟨m, rfl⟩ : ∃ m, n = m + 1 := ⟨n - 1, by omega⟩
  rw [h, Converter.write_eq]

theorem nextType_number (v : String) : nextType u b.toWriter (n + 1) (c.feed [.Number v]) =
    some (c.write b.toWriter (if '.' ∈ v.toList then "float64" else "int")) := rfl

theorem nextType_object (ts : List Token) :
    nextType u b.toWriter (n + 2) (c.feed (.Delim .openBrace :: ts)) =
      structLoop u b.toWriter n ""
        (Converter.feed ⟨c.dec, b.add c.w "struct \x7b\n", c.indent ++ "\t"⟩ ts) := by
  rw [nextType, Converter.feed]
  simp only [List.cons_append, Decoder.Token]
  rw [nextStruct, Converter.write_eq]
  rfl

theorem nextType_array (ts : List Token) :
    nextType u b.toWriter (n + 2) (c.feed (.Delim .openBracket :: ts)) =
      match nextType u b.toWriter n (Converter.feed { c with w := b.add c.w "[]" } ts) with
      | none => none
      | some (some err, c) => some (some err, c)
      | some (none, c) =>
        let (err, tokens) := arrayLoop c.dec.err c.dec.tokens 1
        some (err, { c with dec := { c.dec with tokens } }) := by
  rw [nextType, Converter.feed]
  simp only [List.cons_append, Decoder.Token]
  rw [nextArray, Converter.write_eq]
  rfl

theorem nextType_element (v : Json) (vs : List Json) :
    nextType u b.toWriter (n + 2) (c.feed (Json.array (v :: vs)).tokens) =
      match nextType u b.toWriter n
        (Converter.feed (Converter.feed { c with w := b.add c.w "[]" }
        (elements vs ++ [.Delim .closeBracket])) v.tokens) with
      | none => none
      | some (some err, c) => some (some err, c)
      | some (none, c) =>
        let (err, tokens) := arrayLoop c.dec.err c.dec.tokens 1
        some (err, { c with dec := { c.dec with tokens } }) := by
  rw [Json.tokens, elements, nextType_array, List.append_assoc, Converter.feed_append]

theorem structLoop_close :
    structLoop u b.toWriter (n + 1) ""
        (Converter.feed { c with indent := c.indent ++ "\t" } [.Delim .closeBrace]) =
      some (none, { c with w := b.add c.w (c.indent ++ "\x7d") }) := by
  rw [structLoop, if_pos rfl, Converter.feed]
  simp only [List.cons_append, Decoder.Token]
  rw [if_neg (not_not_intro rfl)]
  exact congrArg (fun c : Converter W => some (none, c.put b.toWriter (c.indent ++ "\x7d")))
    (Converter.unindent_tab c.indent)

theorem structLoop_member (hkey : key ≠ "") (v : Json) (ms : List (String × Json))
    (ts : List Token) :
    structLoop u b.toWriter (n + 2) "" (c.feed (members ((key, v) :: ms) ++ ts)) =
      match nextType u b.toWriter n
        (Converter.feed (Converter.feed
          { c with w := b.add c.w (c.indent ++ Title u key ++ " ") } (members ms ++ ts))
            v.tokens) with
      | none => none
      | some (some err, c) => some (some err, c)
      | some (none, c) =>
        structLoop u b.toWriter n ""
          { c with w := b.add c.w (" `json:\"" ++ key ++ "\"`\n") } := by
  rw [← Converter.feed_append, ← List.append_assoc, structLoop, if_pos rfl, Converter.feed]
  simp only [members, List.cons_append, Decoder.Token]
  rw [structLoop, if_neg hkey]
  rfl

theorem tag_text (key : String) :
    " `json:\"" ++ key ++ "\"`\n" = " `" ++ tagOf key ++ "`\n" := by
  have hopen : " `json:\"" = " `" ++ "json:\"" := by decide
  have hclose : "\"`\n" = "\"" ++ "`\n" := by decide
  rw [tagOf, hopen, hclose]
  simp only [String.append_assoc]

mutual

/-- Every call of `nextType` on a value without empty arrays leaves the text of a type of it. -/
theorem run_type {T : GoType u} (h : TypeOf v T) (hf : Filled v) (c : Converter W) :
    ∃ w', b.written w' = b.written c.w ++ T.text c.indent ∧
      ∀ n, 2 * v.tokens.length ≤ n →
        nextType u b.toWriter n (c.feed v.tokens) = some (none, { c with w := w' }) := by
  cases h with
  | null | bool | string =>
    exact ⟨_, b.written_add .., fun n hn => nextType_single hn fun m => rfl⟩
  | int hdot =>
    refine ⟨_, b.written_add .., fun n hn => nextType_single hn fun m => ?_⟩
    rw [nextType_number, if_neg hdot]
    rfl
  | float64 hdot =>
    refine ⟨_, b.written_add .., fun n hn => nextType_single hn fun m => ?_⟩
    rw [nextType_number, if_pos hdot]
    rfl
  | @array v T vs h =>
    obtain ⟨w', htext, hrun⟩ :=
      run_type h hf (Converter.feed { c with w := b.add c.w "[]" }
        (elements vs ++ [.Delim .closeBracket]))
    refine ⟨w', ?_, fun n hn => ?_⟩
    · rw [htext, GoType.text, ← String.append_assoc]
      exact congrArg (· ++ _) (b.written_add ..)
    · rw [Json.tokens, elements, List.length_cons, List.length_append, List.length_append] at hn
      obtain ⟨m, rfl⟩ : ∃ m, n = m + 2 := ⟨n - 2, by omega⟩
      rw [nextType_element, hrun m (by omega)]
      dsimp only [Converter.feed]
      rw [arrayLoop_rest]
  | empty => exact hf.elim
  | object h =>
    obtain ⟨w', htext, hrun⟩ := run_fields h hf { c with w := b.add c.w "struct \x7b\n" }
    refine ⟨w', ?_, fun n hn => ?_⟩
    · rw [htext, GoType.text, b.written_add]
      simp only [String.append_assoc]
    · rw [Json.tokens, List.length_cons, List.length_append, List.length_singleton] at hn
      obtain ⟨m, rfl⟩ : ∃ m, n = m + 2 := ⟨n - 2, by omega⟩
      rw [Json.tokens, nextType_object]
      exact hrun m (by omega)

theorem run_fields {fields : List (Identifier u × GoType u × RawString)} (h : FieldsOf ms fields)
    (hf : FilledMembers ms) (c : Converter W) :
    ∃ w', b.written w' =
        b.written c.w ++ (fieldsText (c.indent ++ "\t") fields ++ (c.indent ++ "\x7d")) ∧
      ∀ n, 2 * (members ms).length + 2 ≤ n →
        structLoop u b.toWriter n "" (Converter.feed { c with indent := c.indent ++ "\t" }
          (members ms ++ [.Delim .closeBrace])) = some (none, { c with w := w' }) := by
  cases h with
  | nil =>
    refine ⟨b.add c.w (c.indent ++ "\x7d"), ?_, fun n hn => ?_⟩
    · rw [b.written_add, fieldsText, String.empty_append]
    · obtain ⟨m, rfl⟩ : ∃ m, n = m + 1 := ⟨n - 1, by omega⟩
      exact structLoop_close
  | @cons key v T ms fields name tag hname hv htag hms =>
    have hkey : key ≠ "" := ne_empty_of_name hname
    obtain ⟨w₁, htext₁, hrun₁⟩ := run_type hv hf.1
      (Converter.feed ⟨c.dec, b.add c.w (c.indent ++ "\t" ++ Title u key ++ " "),
        c.indent ++ "\t"⟩ (members ms ++ [.Delim .closeBrace]))
    obtain ⟨w₂, htext₂, hrun₂⟩ :=
      run_fields hms hf.2 { c with w := b.add w₁ (" `json:\"" ++ key ++ "\"`\n") }
    refine ⟨w₂, ?_, fun n hn => ?_⟩
    · rw [htext₂, b.written_add, htext₁, tag_text, fieldsText, hname, htag]
      dsimp only [Converter.feed]
      rw [b.written_add]
      simp only [String.append_assoc]
    · rw [members, List.length_cons, List.length_append] at hn
      obtain ⟨m, rfl⟩ : ∃ m, n = m + 2 := ⟨n - 2, by omega⟩
      rw [structLoop_member hkey, hrun₁ m (by omega)]
      exact hrun₂ m (by omega)

end

mutual

/-- The bracket that closes an empty array is taken for the first element. -/
theorem stops_type {T : GoType u} (h : TypeOf v T) (hf : ¬ Filled v) (b : Buffer W)
    (c : Converter W) (n : Nat) (hn : 2 * v.tokens.length ≤ n) :
    ∃ err c', nextType u b.toWriter n (c.feed v.tokens) = some (some err, c') := by
  cases h with
  | null | bool | int | float64 | string => exact absurd trivial hf
  | @array v T vs h =>
    rw [Json.tokens, elements, List.length_cons, List.length_append, List.length_append] at hn
    obtain ⟨m, rfl⟩ : ∃ m, n = m + 2 := ⟨n - 2, by omega⟩
    obtain ⟨err, c', hrun⟩ := stops_type h hf b
      (Converter.feed { c with w := b.add c.w "[]" } (elements vs ++ [.Delim .closeBracket])) m
      (by omega)
    refine ⟨err, c', ?_⟩
    rw [nextType_element, hrun]
  | empty =>
    obtain ⟨m, rfl⟩ : ∃ m, n = m + 3 := ⟨n - 3, Nat.eq_add_of_sub_eq (Nat.le_of_lt hn) rfl⟩
    refine ⟨errInvalidDelim, { c with w := b.add c.w "[]" }, ?_⟩
    rw [Json.tokens, elements, nextType_array]
    rfl
  | object h =>
    rw [Json.tokens, List.length_cons, List.length_append, List.length_singleton] at hn
    obtain ⟨m, rfl⟩ : ∃ m, n = m + 2 := ⟨n - 2, by omega⟩
    rw [Json.tokens, nextType_object]
    exact stops_fields h hf b _ m (by omega)

theorem stops_fields {fields : List (Identifier u × GoType u × RawString)}
    (h : FieldsOf ms fields) (hf : ¬ FilledMembers ms) (b : Buffer W) (c : Converter W) (n : Nat)
    (hn : 2 * (members ms).length + 2 ≤ n) :
    ∃ err c', structLoop u b.toWriter n "" (c.feed (members ms ++ [.Delim .closeBrace])) =
      some (some err, c') := by
  cases h with
  | nil => exact absurd trivial hf
  | @cons key v T ms fields name tag hname hv htag hms =>
    have hkey : key ≠ "" := ne_empty_of_name hname
    rw [members, List.length_cons, List.length_append] at hn
    obtain ⟨m, rfl⟩ : ∃ m, n = m + 2 := ⟨n - 2, by omega⟩
    rw [structLoop_member hkey]
    by_cases hfv : Filled v
    · obtain ⟨w', -, hrun⟩ := run_type (b := b) hv hfv
        (Converter.feed { c with w := b.add c.w (c.indent ++ Title u key ++ " ") }
          (members ms ++ [.Delim .closeBrace]))
      rw [hrun m (by omega)]
      exact stops_fields hms (fun hfms => hf ⟨hfv, hfms⟩) b
        { c with w := b.add w' (" `json:\"" ++ key ++ "\"`\n") } m (by omega)
    · obtain ⟨err, c', hrun⟩ := stops_type hv hfv b
        (Converter.feed { c with w := b.add c.w (c.indent ++ Title u key ++ " ") }
          (members ms ++ [.Delim .closeBrace])) m (by omega)
      rw [hrun]
      exact ⟨err, c', rfl⟩

end

/-- `nextType` consumes a value, restores the indent and writes one type expression for it. -/
def Converts (u : Unicode) (b : Buffer W) (c : Converter W) (v : Json) : Prop :=
  ∃ (T : TypeExpr u) (w' : W), TypeOf v T.type ∧
    b.written w' = b.written c.w ++ T.type.text c.indent ∧
    ∀ n, 2 * v.tokens.length ≤ n →
      nextType u b.toWriter n (c.feed v.tokens) = some (none, { c with w := w' })

theorem converts_iff : Converts u b c v ↔ Named u v ∧ Filled v := by
  constructor
  · rintro ⟨T, w', hT, -, hrun⟩
    refine ⟨hT.named T.legal, by_contra fun hf => ?_⟩
    obtain ⟨err, c', herr⟩ := stops_type hT hf b c _ (Nat.le_refl _)
    cases (hrun _ (Nat.le_refl _)).symm.trans herr
  · rintro ⟨hn, hf⟩
    obtain ⟨T, hT⟩ := exists_typeOf_iff.2 hn
    obtain ⟨w', htext, hrun⟩ := run_type hT hf c
    exact ⟨T, w', hT, htext, hrun⟩

def ascii : Unicode := ⟨Char.isAlpha, Char.isDigit, Char.isWhitespace, Char.toUpper⟩

def builder : Buffer String where
  Write w text := (none, w ++ text)
  written := id
  Write_nil _ _ := rfl
  written_Write _ _ := rfl

/-- The document is an empty array. -/
theorem empty_array_stops :
    ¬ ∀ (c : Converter String) (v : Json), Converts ascii builder c v := by
  intro h
  obtain ⟨T, w', hT, -, hrun⟩ := h ⟨⟨[], .EOF⟩, "", ""⟩ (.array [])
  obtain ⟨err, c', herr⟩ := stops_type hT id builder ⟨⟨[], .EOF⟩, "", ""⟩ 4 (Nat.le_refl _)
  cases (hrun 4 (Nat.le_refl _)).symm.trans herr

example : (nextType ascii builder.toWriter 20
    ⟨⟨(Json.object [("a", .array [.number "1", .null]), ("b_c", .bool true)]).tokens, .EOF⟩, "",
      ""⟩).map (·.2.w) =
    some "struct \x7b\n\tA []int `json:\"a\"`\n\tB_c bool `json:\"b_c\"`\n\x7d" := by
  decide +kernel

/-- Two names that become one leave a struct that declares a field twice. -/
theorem same_name_illegal (hkey : Title u key = Title u key') (hblank : Title u key ≠ "_")
    (v v' : Json) (b : Buffer W) (c : Converter W) :
    ¬ Converts u b c (.object [(key, v), (key', v')]) := by
  intro h
  have hnames : Distinct [Title u key, Title u key'] := (converts_iff.1 h).1.1
  exact hblank ((List.pairwise_pair.1 hnames) hkey)

/-- An empty name is not told from no name: the value is read as a name. -/
theorem empty_name_stops (hv : ∀ s, v ≠ .string s) (ms : List (String × Json)) (n : Nat) :
    ∃ err c', nextType u b.toWriter (n + 4) (c.feed (Json.object (("", v) :: ms)).tokens) =
      some (some err, c') := by
  rw [Json.tokens, nextType_object, members, structLoop, if_pos rfl, Converter.feed]
  simp only [List.cons_append, Decoder.Token]
  rw [structLoop, if_pos rfl]
  cases v with
  | string s => exact absurd rfl (hv s)
  | null | bool | number => exact ⟨errInvalidKey, _, rfl⟩
  | array | object => exact ⟨errInvalidDelim, _, rfl⟩

theorem json2go_file (hn : Named u v) (hf : Filled v) (b : Buffer W)
    (rest : List Token) (err : Err)
    (w : W) (pkgname name : String) :
    ∃ (T : TypeExpr u) (w' : W), TypeOf v T.type ∧
      b.written w' = b.written w ++
        ("package " ++ pkgname ++ "\n" ++ "\n" ++ "type " ++ name ++ " " ++ T.type.text "") ∧
      ∀ n, 2 * v.tokens.length ≤ n →
        json2go u b.toWriter n ⟨v.tokens ++ rest, err⟩ w pkgname name = some (none, w') := by
  obtain ⟨T, hT⟩ := exists_typeOf_iff.2 hn
  obtain ⟨w', htext, hrun⟩ := run_type (b := b) hT hf
    ⟨⟨rest, err⟩, b.add (b.add (b.add w ("package " ++ pkgname ++ "\n")) "\n")
      ("type " ++ name ++ " "), ""⟩
  refine ⟨T, w', hT, ?_, fun n hle => ?_⟩
  · rw [htext, b.written_add, b.written_add, b.written_add]
    simp only [String.append_assoc]
  · have hfile :=
      congrArg (Option.map fun r : Option Err × Converter W => ((none : Option Err), r.2.w))
      (hrun n hle)
    exact hfile

end Misc.Json2go
