import Misc.Dotjson.Text

namespace Misc.Dotjson
set_option autoImplicit true

/-- What `decode_object` writes into an entry before its value: `key` holds the `keylen` bytes
that stand before the closing NUL. -/
structure Key where
  keyhash : UInt32
  keylen : Nat
  key : List UInt8
  deriving DecidableEq, Repr

structure Entry (α : Type) extends Key where
  val : α
  deriving DecidableEq, Repr

/-- `struct dotj_object`: `cap` slots, of which `len` are counted as taken. -/
structure Table (α : Type) where
  cap : Nat
  len : Nat
  entries : List (Option (Entry α))
  deriving DecidableEq, Repr

/-- The hash of a string up to its NUL; `char` is a signed byte. -/
def hash (s : List UInt8) : UInt32 :=
  (s.takeWhile (· != 0)).foldl (fun h c => h * 1313 + c.toInt8.toInt32.toUInt32) 1313

/-- The `i`-th slot that is looked at for a hash. -/
def Table.probe (o : Table α) (h : UInt32) (i : Nat) : Nat := (h.toNat + i) &&& (o.cap - 1)

def objectSlot (o : Table α) (key : List UInt8) : Nat :=
  match (List.range o.cap).find? fun i =>
    (o.entries.getD (o.probe (hash key) i) none).isNone with
  | some i => o.probe (hash key) i
  | none => o.cap

/-- `entries[object_slot(o, entry->key)] = entry; len++`. A store behind the slots is never
read. -/
def Table.put (o : Table α) (e : Entry α) : Table α :=
  { o with entries := o.entries.set (objectSlot o e.key) (some e), len := o.len + 1 }

def Table.fresh (cap : Nat) : Table α := ⟨cap, 0, List.replicate cap none⟩

/-- The loop that moves the entries to the new object. -/
def Table.move (o : Table α) (es : List (Option (Entry α))) : Table α :=
  es.foldl (fun o e => match e with | none => o | some e => o.put e) o

def objectGrow : Option (Table α) → Table α
  | none => .fresh 1
  | some o =>
    let cap := minBucket (o.len + 1)
    if o.cap ≥ cap then o else (Table.fresh cap).move (o.entries.take o.len)

/-- What state 4 of `decode_object` does with a finished entry. -/
def objectAdd (object : Option (Table α)) (e : Entry α) : Table α :=
  match object with
  | none => (objectGrow none).put e
  | some o => (if o.len = o.cap then objectGrow (some o) else o).put e

structure Items (α : Type) where
  cap : Nat
  len : Nat
  items : List α
  deriving DecidableEq, Repr

def arrayGrow : Option (Items α) → Items α
  | none => ⟨1, 0, []⟩
  | some a =>
    if a.len < a.cap then a
    else { a with cap := if a.cap ≥ 256 then a.cap + 256 else a.cap <<< 1 }

/-- `items[len++] = node` after the growth that state 2 of `decode_array` asks for. -/
def arrayAdd (array : Option (Items α)) (x : α) : Items α :=
  let a := match array with
    | none => arrayGrow none
    | some a => if a.len = a.cap then arrayGrow (some a) else a
  { a with items := a.items ++ [x], len := a.len + 1 }

end Misc.Dotjson
