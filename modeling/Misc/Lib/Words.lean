import Misc.Lib.Digits

namespace Misc.Lib
set_option autoImplicit true

abbrev Word (k : Nat) := Fin (256 ^ k)

/-- The order in which a machine keeps the bytes of a word. -/
inductive ByteOrder
  | little
  | big
  deriving DecidableEq, Repr

namespace Word

def fromLeBytes (b : Vector UInt8 k) : Word k :=
  ⟨ofLittleEndian b.toList,
    Nat.lt_of_lt_of_eq (ofLittleEndian_lt b.toList) (congrArg (256 ^ ·) b.length_toList)⟩

def toLeBytes (w : Word k) : Vector UInt8 k :=
  ⟨(littleEndian k w).toArray, littleEndian_length k w⟩

def fromBeBytes (b : Vector UInt8 k) : Word k := fromLeBytes b.reverse

def toBeBytes (w : Word k) : Vector UInt8 k := w.toLeBytes.reverse

def swapBytes (w : Word k) : Word k := fromLeBytes w.toLeBytes.reverse

/-- The word that a machine finds in these bytes of its memory. -/
def load (o : ByteOrder) (b : Vector UInt8 k) : Word k :=
  match o with
  | .little => fromLeBytes b
  | .big => fromBeBytes b

def store (o : ByteOrder) (w : Word k) : Vector UInt8 k :=
  match o with
  | .little => w.toLeBytes
  | .big => w.toBeBytes

/-- The word that lies in the memory with the highest byte of `w` first. -/
def toBe (o : ByteOrder) (w : Word k) : Word k :=
  match o with
  | .little => w.swapBytes
  | .big => w

@[simp] theorem toLeBytes_fromLeBytes (b : Vector UInt8 k) : (fromLeBytes b).toLeBytes = b := by
  rw [← Vector.toList_inj]
  have h := littleEndian_ofLittleEndian b.toList
  rwa [b.length_toList] at h

@[simp] theorem fromLeBytes_toLeBytes (w : Word k) : fromLeBytes w.toLeBytes = w :=
  Fin.ext (ofLittleEndian_littleEndian w.isLt)

theorem fromLeBytes_inj {b b' : Vector UInt8 k} : fromLeBytes b = fromLeBytes b' ↔ b = b' := by
  refine ⟨fun h => ?_, fun h => h ▸ rfl⟩
  rw [← toLeBytes_fromLeBytes b, h, toLeBytes_fromLeBytes]

@[simp] theorem swapBytes_fromLeBytes (b : Vector UInt8 k) :
    (fromLeBytes b).swapBytes = fromBeBytes b := by
  rw [swapBytes, toLeBytes_fromLeBytes, fromBeBytes]

@[simp] theorem swapBytes_fromBeBytes (b : Vector UInt8 k) :
    (fromBeBytes b).swapBytes = fromLeBytes b := by
  rw [fromBeBytes, swapBytes_fromLeBytes, fromBeBytes, Vector.reverse_reverse]

@[simp] theorem toBeBytes_fromBeBytes (b : Vector UInt8 k) : (fromBeBytes b).toBeBytes = b := by
  rw [toBeBytes, fromBeBytes, toLeBytes_fromLeBytes, Vector.reverse_reverse]

@[simp] theorem toBe_load (o : ByteOrder) (b : Vector UInt8 k) :
    (load o b).toBe o = fromBeBytes b := by
  cases o with
  | little => exact swapBytes_fromLeBytes b
  | big => rfl

@[simp] theorem load_store (o : ByteOrder) (w : Word k) : load o (w.store o) = w := by
  cases o with
  | little => exact fromLeBytes_toLeBytes w
  | big =>
    rw [load, store, fromBeBytes, toBeBytes, Vector.reverse_reverse, fromLeBytes_toLeBytes]

@[simp] theorem store_load (o : ByteOrder) (b : Vector UInt8 k) : (load o b).store o = b := by
  cases o with
  | little => exact toLeBytes_fromLeBytes b
  | big => exact toBeBytes_fromBeBytes b

theorem load_toBeBytes (o : ByteOrder) (w : Word k) : load o w.toBeBytes = w.toBe o := by
  cases o with
  | little => rfl
  | big => rw [load, fromBeBytes, toBeBytes, Vector.reverse_reverse, fromLeBytes_toLeBytes, toBe]

theorem toBe_toBe (o : ByteOrder) (w : Word k) : (w.toBe o).toBe o = w := by
  cases o with
  | little =>
    rw [toBe, toBe, swapBytes.eq_def w, swapBytes_fromLeBytes, fromBeBytes,
      Vector.reverse_reverse, fromLeBytes_toLeBytes]
  | big => rfl

/-- A number is kept in the network order if the highest byte is the first anyway, or if it
makes no difference. -/
theorem fromBeBytes_eq_load_iff (o : ByteOrder) (b : Vector UInt8 k) :
    fromBeBytes b = load o b ↔ o = .big ∨ b.reverse = b := by
  cases o with
  | little => exact fromLeBytes_inj.trans (or_iff_right nofun).symm
  | big => exact iff_of_true rfl (Or.inl rfl)

end Word

end Misc.Lib
