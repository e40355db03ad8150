import Misc.Jsoniter.Iter

namespace Misc.Jsoniter
set_option autoImplicit true

def Blank (w : List UInt8) : Prop := ∀ c ∈ w, iswhitespace c = true

def isScalar : Kind → Bool
  | .null | .false | .true | .number | .string => true
  | _ => false

def objectToken : Token := (.object, [ch '\x7b'])
def closeObjectToken : Token := (.closeObject, [ch '\x7d'])
def arrayToken : Token := (.array, [ch '['])
def closeArrayToken : Token := (.closeArray, [ch ']'])

section
variable (lex : Kind → List UInt8 → Prop)

mutual

/-- The bytes of a value and its tokens; `lex` says which bytes are a token of a scalar kind. -/
inductive Value : List UInt8 → List Token → Prop
  | scalar : isScalar kind = true → lex kind part → Value part [(kind, part)]
  | emptyArray : Blank w → Value (ch '[' :: (w ++ [ch ']'])) [arrayToken, closeArrayToken]
  | array : Blank w → Value v ts → ArrayEnd b us →
      Value (ch '[' :: (w ++ (v ++ b))) (arrayToken :: (ts ++ us))
  | emptyObject : Blank w →
      Value (ch '\x7b' :: (w ++ [ch '\x7d'])) [objectToken, closeObjectToken]
  | object : Blank w → Member m ts → ObjectEnd b us →
      Value (ch '\x7b' :: (w ++ (m ++ b))) (objectToken :: (ts ++ us))

/-- What follows an element of an array, up to the closing bracket. -/
inductive ArrayEnd : List UInt8 → List Token → Prop
  | close : Blank w → ArrayEnd (w ++ [ch ']']) [closeArrayToken]
  | more : Blank w → Blank w' → Value v ts → ArrayEnd b us →
      ArrayEnd (w ++ (ch ',' :: (w' ++ (v ++ b)))) (ts ++ us)

/-- A key and its value. -/
inductive Member : List UInt8 → List Token → Prop
  | mk : lex .string k → Blank w → Blank w' → Value v ts →
      Member (k ++ (w ++ (ch ':' :: (w' ++ v)))) ((.string, k) :: ts)

/-- What follows a member of an object, up to the closing brace. -/
inductive ObjectEnd : List UInt8 → List Token → Prop
  | close : Blank w → ObjectEnd (w ++ [ch '\x7d']) [closeObjectToken]
  | more : Blank w → Blank w' → Member m ts → ObjectEnd b us →
      ObjectEnd (w ++ (ch ',' :: (w' ++ (m ++ b)))) (ts ++ us)

end

/-- Values one after another with whitespace between them; `far` says what may follow a number
that stands by itself. -/
inductive Text (far : List UInt8 → Prop) : List UInt8 → List Token → Prop
  | nil : Blank w → Text far w []
  | cons : Blank w → Value lex v ts → (∀ part, ts = [(.number, part)] → far b) →
      Text far b us → Text far (w ++ (v ++ b)) (ts ++ us)

end

section
variable {lex lex' : Kind → List UInt8 → Prop}

mutual

theorem Value.imp (h : Value lex v ts) (himp : ∀ t ∈ ts, lex t.1 t.2 → lex' t.1 t.2) :
    Value lex' v ts :=
  match h with
  | .scalar hk hlex => .scalar hk (himp _ (List.mem_singleton_self _) hlex)
  | .emptyArray hw => .emptyArray hw
  | .array hw hv hb => .array hw
      (hv.imp fun t ht => himp t (List.mem_cons_of_mem _ (List.mem_append_left _ ht)))
      (hb.imp fun t ht => himp t (List.mem_cons_of_mem _ (List.mem_append_right _ ht)))
  | .emptyObject hw => .emptyObject hw
  | .object hw hm hb => .object hw
      (hm.imp fun t ht => himp t (List.mem_cons_of_mem _ (List.mem_append_left _ ht)))
      (hb.imp fun t ht => himp t (List.mem_cons_of_mem _ (List.mem_append_right _ ht)))

theorem ArrayEnd.imp (h : ArrayEnd lex b ts) (himp : ∀ t ∈ ts, lex t.1 t.2 → lex' t.1 t.2) :
    ArrayEnd lex' b ts :=
  match h with
  | .close hw => .close hw
  | .more hw hw' hv hb => .more hw hw'
      (hv.imp fun t ht => himp t (List.mem_append_left _ ht))
      (hb.imp fun t ht => himp t (List.mem_append_right _ ht))

theorem Member.imp (h : Member lex m ts) (himp : ∀ t ∈ ts, lex t.1 t.2 → lex' t.1 t.2) :
    Member lex' m ts :=
  match h with
  | .mk hk hw hw' hv => .mk (himp _ List.mem_cons_self hk) hw hw'
      (hv.imp fun t ht => himp t (List.mem_cons_of_mem _ ht))

theorem ObjectEnd.imp (h : ObjectEnd lex b ts) (himp : ∀ t ∈ ts, lex t.1 t.2 → lex' t.1 t.2) :
    ObjectEnd lex' b ts :=
  match h with
  | .close hw => .close hw
  | .more hw hw' hm hb => .more hw hw'
      (hm.imp fun t ht => himp t (List.mem_append_left _ ht))
      (hb.imp fun t ht => himp t (List.mem_append_right _ ht))

end

theorem forall_scalar_append {ts us : List Token}
    (h : ∀ t ∈ ts, isScalar t.1 = true → lex t.1 t.2)
    (h' : ∀ t ∈ us, isScalar t.1 = true → lex t.1 t.2) :
    ∀ t ∈ ts ++ us, isScalar t.1 = true → lex t.1 t.2 := by
  intro t ht
  rcases List.mem_append.1 ht with ht | ht
  · exact h t ht
  · exact h' t ht

theorem forall_scalar_cons {t : Token} {ts : List Token} (ht : isScalar t.1 = true → lex t.1 t.2)
    (h : ∀ t ∈ ts, isScalar t.1 = true → lex t.1 t.2) :
    ∀ u ∈ t :: ts, isScalar u.1 = true → lex u.1 u.2 := List.forall_mem_cons.2 ⟨ht, h⟩

mutual

theorem Value.scalars (h : Value lex v ts) : ∀ t ∈ ts, isScalar t.1 = true → lex t.1 t.2 :=
  match h with
  | .scalar _ hlex => forall_scalar_cons (fun _ => hlex) nofun
  | .emptyArray _ => forall_scalar_cons nofun (forall_scalar_cons nofun nofun)
  | .array _ hv hb => forall_scalar_cons nofun (forall_scalar_append hv.scalars hb.scalars)
  | .emptyObject _ => forall_scalar_cons nofun (forall_scalar_cons nofun nofun)
  | .object _ hm hb => forall_scalar_cons nofun (forall_scalar_append hm.scalars hb.scalars)

theorem ArrayEnd.scalars (h : ArrayEnd lex b ts) : ∀ t ∈ ts, isScalar t.1 = true → lex t.1 t.2 :=
  match h with
  | .close _ => forall_scalar_cons nofun nofun
  | .more _ _ hv hb => forall_scalar_append hv.scalars hb.scalars

theorem Member.scalars (h : Member lex m ts) : ∀ t ∈ ts, isScalar t.1 = true → lex t.1 t.2 :=
  match h with
  | .mk hk _ _ hv => forall_scalar_cons (fun _ => hk) hv.scalars

theorem ObjectEnd.scalars (h : ObjectEnd lex b ts) :
    ∀ t ∈ ts, isScalar t.1 = true → lex t.1 t.2 :=
  match h with
  | .close _ => forall_scalar_cons nofun nofun
  | .more _ _ hm hb => forall_scalar_append hm.scalars hb.scalars

end

theorem Text.scalars (h : Text lex far b ts) : ∀ t ∈ ts, isScalar t.1 = true → lex t.1 t.2 := by
  induction h with
  | nil => exact nofun
  | cons _ hv _ _ ih => exact forall_scalar_append hv.scalars ih

end

section
variable (lex : Kind → List UInt8 → Prop) (far : List UInt8 → Prop)

/-- What can follow a value in the containers of a stack, the innermost first: 2 is an array and
5 an object. -/
inductive Tail : List Nat → List UInt8 → List Token → Prop
  | text : Text lex far b ts → Tail [] b ts
  | array : ArrayEnd lex b ts → Tail st b' us → Tail (2 :: st) (b ++ b') (ts ++ us)
  | object : ObjectEnd lex b ts → Tail st b' us → Tail (5 :: st) (b ++ b') (ts ++ us)

/-- What can be left of a text when the iterator is in a state. -/
inductive Left : Nat → List Nat → List UInt8 → List Token → Prop
  | start : Text lex far b ts → Left 0 [] b ts
  | emptyArray : Blank w → Tail lex far top b ts →
      Left 1 top (w ++ (ch ']' :: b)) (closeArrayToken :: ts)
  | array : Blank w → Value lex v ts → Tail lex far (2 :: top) b us →
      Left 1 top (w ++ (v ++ b)) (ts ++ us)
  | element : Tail lex far (2 :: top) b ts → Left 2 top b ts
  | emptyObject : Blank w → Tail lex far top b ts →
      Left 3 top (w ++ (ch '\x7d' :: b)) (closeObjectToken :: ts)
  | object : Blank w → Member lex m ts → Tail lex far (5 :: top) b us →
      Left 3 top (w ++ (m ++ b)) (ts ++ us)
  | colon : Blank w → Blank w' → Value lex v ts → Tail lex far (5 :: top) b us →
      Left 4 top (w ++ (ch ':' :: (w' ++ (v ++ b)))) (ts ++ us)
  | member : Tail lex far (5 :: top) b ts → Left 5 top b ts

end

/-- The containers that are open while `cur` waits for a value, or for what follows one. -/
def stack (cur : Nat) (top : List Nat) : List Nat := if cur = 0 then top else cur :: top

/-- The states in which `readvalue` is called. -/
def Valued (cur : Nat) (top : List Nat) : Prop := cur = 0 ∧ top = [] ∨ cur = 2 ∨ cur = 5

variable {lex : Kind → List UInt8 → Prop} {far : List UInt8 → Prop}

theorem left_iff_tail (h : Valued cur top) :
    Left lex far cur top b ts ↔ Tail lex far (stack cur top) b ts := by
  obtain ⟨rfl, rfl⟩ | rfl | rfl := h
  · constructor
    · rintro ⟨h⟩
      exact .text h
    · rintro ⟨h⟩
      exact .start h
  · constructor
    · intro h
      cases h with
      | element h => exact h
    · exact .element
  · constructor
    · intro h
      cases h with
      | member h => exact h
    · exact .member

end Misc.Jsoniter
