import Misc.Json2go.GoType
import Misc.Json2go.Tokens

namespace Misc.Json2go
set_option autoImplicit true

/-- The tag of a member's field. -/
def tagOf (key : String) : String := "json:\"" ++ key ++ "\""

mutual

/-- A type expression is one for a JSON value: an array has the element type of its first
element, and an object one field for each member, with its name and its type. -/
inductive TypeOf {u : Unicode} : Json → GoType u → Prop
  | null : TypeOf .null .interface
  | bool : TypeOf (.bool b) (.basic .bool)
  | int : '.' ∉ n.toList → TypeOf (.number n) (.basic .int)
  | float64 : '.' ∈ n.toList → TypeOf (.number n) (.basic .float64)
  | string : TypeOf (.string s) (.basic .string)
  | array : TypeOf v T → TypeOf (.array (v :: vs)) (.slice T)
  | empty : TypeOf (.array []) (.slice T)
  | object : FieldsOf ms fields → TypeOf (.object ms) (.struct fields)

inductive FieldsOf {u : Unicode} :
    List (String × Json) → List (Identifier u × GoType u × RawString) → Prop
  | nil : FieldsOf [] []
  | cons : name.text = Title u key → TypeOf v T → tag.text = tagOf key → FieldsOf ms fields →
      FieldsOf ((key, v) :: ms) ((name, T, tag) :: fields)

end

variable (u : Unicode)

/-- A member of this name has a field: the name can be written in an identifier and in a tag. -/
def Nameable (key : String) : Prop := isIdentifier u (Title u key) = true ∧ '`' ∉ key.toList

instance (key : String) : Decidable (Nameable u key) :=
  inferInstanceAs (Decidable (_ ∧ _))

mutual

/-- Every member of an object has a field, and no two have the same. The elements of an array
behind the first do not count. -/
def Named : Json → Prop
  | .array (v :: _) => Named v
  | .object ms => Distinct (ms.map fun m => Title u m.1) ∧ NamedMembers ms
  | _ => True

def NamedMembers : List (String × Json) → Prop
  | [] => True
  | (key, v) :: ms => Nameable u key ∧ Named v ∧ NamedMembers ms

end

mutual

/-- No array is empty. The elements of an array behind the first do not count. -/
def Filled : Json → Prop
  | .array [] => False
  | .array (v :: _) => Filled v
  | .object ms => FilledMembers ms
  | _ => True

def FilledMembers : List (String × Json) → Prop
  | [] => True
  | (_, v) :: ms => Filled v ∧ FilledMembers ms

end

variable {u}

theorem backquote_tagOf : '`' ∈ (tagOf key).toList ↔ '`' ∈ key.toList := by
  rw [tagOf, String.toList_append, String.toList_append, List.mem_append, List.mem_append]
  constructor
  · rintro ((h | h) | h)
    · exact absurd h (by decide)
    · exact h
    · exact absurd h (by decide)
  · intro h
    exact Or.inl (Or.inr h)

theorem FieldsOf.names {fields : List (Identifier u × GoType u × RawString)}
    (h : FieldsOf ms fields) : (fields.map fun f => f.1.text) = ms.map fun m => Title u m.1 :=
  match h with
  | .nil => rfl
  | .cons hname _ _ hms => congrArg₂ _ hname hms.names

mutual

theorem TypeOf.named {T : GoType u} (h : TypeOf v T) (hl : T.Legal) : Named u v :=
  match h with
  | .null | .bool | .int _ | .float64 _ | .string | .empty => trivial
  | .array h => h.named hl
  | .object h => ⟨h.names ▸ hl.1, h.named hl.2⟩

theorem FieldsOf.named {fields : List (Identifier u × GoType u × RawString)}
    (h : FieldsOf ms fields) (hl : fieldsLegal fields) : NamedMembers u ms :=
  match h with
  | .nil => trivial
  | .cons hname hv htag hms =>
    ⟨⟨hname ▸ Identifier.ok _, fun hkey => RawString.ok _ (htag ▸ backquote_tagOf.2 hkey)⟩,
      hv.named hl.1, hms.named hl.2⟩

end

mutual

theorem exists_typeOf : ∀ v, Named u v → ∃ T : GoType u, T.Legal ∧ TypeOf v T
  | .null, _ => ⟨.interface, trivial, .null⟩
  | .bool _, _ => ⟨.basic .bool, trivial, .bool⟩
  | .number n, _ => by
    by_cases hdot : '.' ∈ n.toList
    · exact ⟨.basic .float64, trivial, .float64 hdot⟩
    · exact ⟨.basic .int, trivial, .int hdot⟩
  | .string _, _ => ⟨.basic .string, trivial, .string⟩
  | .array [], _ => ⟨.slice .interface, trivial, .empty⟩
  | .array (v :: _), h => by
    obtain ⟨T, hl, hT⟩ := exists_typeOf v h
    exact ⟨.slice T, hl, .array hT⟩
  | .object ms, ⟨hd, hms⟩ => by
    obtain ⟨fields, hl, hfields⟩ := exists_fieldsOf ms hms
    exact ⟨.struct fields, ⟨hfields.names ▸ hd, hl⟩, .object hfields⟩

theorem exists_fieldsOf : ∀ ms, NamedMembers u ms →
    ∃ fields : List (Identifier u × GoType u × RawString),
      fieldsLegal fields ∧ FieldsOf ms fields
  | [], _ => ⟨[], trivial, .nil⟩
  | (key, v) :: ms, ⟨hkey, hv, hms⟩ => by
    obtain ⟨T, hl, hT⟩ := exists_typeOf v hv
    obtain ⟨fields, hl', hfields⟩ := exists_fieldsOf ms hms
    have htag : '`' ∉ (tagOf key).toList := mt backquote_tagOf.1 hkey.2
    exact ⟨(⟨Title u key, hkey.1⟩, T, ⟨tagOf key, htag⟩) :: fields, ⟨hl, hl'⟩,
      .cons rfl hT rfl hfields⟩

end

theorem exists_typeOf_iff : (∃ T : TypeExpr u, TypeOf v T.type) ↔ Named u v := by
  constructor
  · rintro ⟨T, hT⟩
    exact hT.named T.legal
  · intro hn
    obtain ⟨T, hl, hT⟩ := exists_typeOf v hn
    exact ⟨⟨T, hl⟩, hT⟩

theorem ne_empty_of_name {name : Identifier u} (h : name.text = Title u key) : key ≠ "" := by
  rintro rfl
  have hok := name.ok
  rw [h] at hok
  exact absurd hok (by simp [isIdentifier, Title, titleFrom])

end Misc.Json2go
