import Misc.Lib.Words
import Mathlib

namespace Misc.Inotify
open Misc.Lib
set_option autoImplicit true

/-- `wd` as the bits of a `c_int`, and the bytes of the name. -/
structure InotifyEvent where
  wd : Word 4
  mask : Word 4
  cookie : Word 4
  name : List UInt8

/-- A read past the end of the buffer, and the panic of `unwrap`. -/
inductive Failure
  | outOfBounds
  | panic

def NAME_MAX : Nat := 255

def C_INOTIFY_EVENT_SIZE : Nat := 16

def wordAt (o : ByteOrder) (rest : List UInt8) (k : Nat) : Word 4 :=
  .load o (.ofFn fun i => rest.getD (k + i) 0)

/-- The loop of `read_event`, with the buffer from `offs` on and what `n` is ahead of `offs`. -/
def readEvents (o : ByteOrder) (rest : List UInt8) (left : Nat) :
    Except Failure (List InotifyEvent) :=
  if 0 < left then
    if rest.length < C_INOTIFY_EVENT_SIZE then .error .outOfBounds
    else
      let len := (wordAt o rest 12).val
      if rest.length < C_INOTIFY_EVENT_SIZE + len then .error .outOfBounds
      else
        let field := (rest.drop C_INOTIFY_EVENT_SIZE).take len
        if 0 < len ∧ 0 ∉ field then .error .panic
        else
          (readEvents o (rest.drop (C_INOTIFY_EVENT_SIZE + len))
            (left - (C_INOTIFY_EVENT_SIZE + len))).map
            (⟨wordAt o rest 0, wordAt o rest 4, wordAt o rest 8, field.takeWhile (· ≠ 0)⟩ :: ·)
  else .ok []
termination_by left
decreasing_by
  rw [C_INOTIFY_EVENT_SIZE]
  omega

def Buffer := Vector UInt8 (C_INOTIFY_EVENT_SIZE + NAME_MAX + 1)

/-- `read_event` when the call of `read` has returned `n`: what `f` is called with. -/
def readEvent (o : ByteOrder) (buf : Buffer) (n : Nat) : Except Failure (List InotifyEvent) :=
  readEvents o buf.toList n

/-! ## Records -/

/-- What the kernel writes for an event: a field for the name is filled up with zeros, at least
one. -/
structure Record where
  wd : Word 4
  mask : Word 4
  cookie : Word 4
  field : List UInt8
  ended : field = [] ∨ 0 ∈ field
  fits : field.length < 256 ^ 4

namespace Record

def header (o : ByteOrder) (r : Record) : List UInt8 :=
  (r.wd.store o).toList ++ (r.mask.store o).toList ++ (r.cookie.store o).toList ++
    (Word.store o ⟨r.field.length, r.fits⟩ : Vector UInt8 4).toList

def bytes (o : ByteOrder) (r : Record) : List UInt8 := r.header o ++ r.field

def event (r : Record) : InotifyEvent := ⟨r.wd, r.mask, r.cookie, r.field.takeWhile (· ≠ 0)⟩

/-- The records of which the loop meets the last one before it has passed `left` bytes. -/
def Covers (o : ByteOrder) : List Record → Nat → Prop
  | [], left => left = 0
  | r :: rs, left => 0 < left ∧ Covers o rs (left - (r.bytes o).length)

end Record

section
variable {o : ByteOrder} {rest a b : List UInt8} {k n left : Nat} {r : Record} {rs : List Record}
  {evs : List InotifyEvent}

theorem wordAt_append (o : ByteOrder) (a b : List UInt8) (w : Word 4) :
    wordAt o (a ++ ((w.store o).toList ++ b)) a.length = w := by
  have hv :
      (Vector.ofFn fun i : Fin 4 => (a ++ ((w.store o).toList ++ b)).getD (a.length + i) 0) =
      w.store o := by
    ext i hi
    rw [Vector.getElem_ofFn, List.getD_append_right _ _ _ _ (Nat.le_add_right _ _),
      Nat.add_sub_cancel_left,
      List.getD_append _ _ _ _ (by simpa using hi),
        List.getD_eq_getElem _ _ (by simpa using hi), Vector.getElem_toList]
  rw [wordAt, hv, Word.load_store]

theorem store_wordAt (h : k + 4 ≤ rest.length) :
    ((wordAt o rest k).store o).toList = (rest.drop k).take 4 := by
  rw [wordAt, Word.store_load]
  apply List.ext_getElem (by simp; omega)
  intro i hi hi'
  rw [Vector.getElem_toList, Vector.getElem_ofFn, List.getElem_take, List.getElem_drop,
    List.getD_eq_getElem]

theorem Record.header_length (o : ByteOrder) (r : Record) :
    (r.header o).length = C_INOTIFY_EVENT_SIZE := by
  simp [header, C_INOTIFY_EVENT_SIZE]

theorem Record.bytes_length (o : ByteOrder) (r : Record) :
    (r.bytes o).length = C_INOTIFY_EVENT_SIZE + r.field.length := by
  rw [bytes, List.length_append, header_length]

theorem Record.words (o : ByteOrder) (r : Record) (rest : List UInt8) :
    wordAt o (r.bytes o ++ rest) 0 = r.wd ∧ wordAt o (r.bytes o ++ rest) 4 = r.mask ∧
      wordAt o (r.bytes o ++ rest) 8 = r.cookie ∧
        wordAt o (r.bytes o ++ rest) 12 = ⟨r.field.length, r.fits⟩ := by
  have hwd := wordAt_append o [] ((r.mask.store o).toList ++ ((r.cookie.store o).toList ++
    ((Word.store o ⟨r.field.length, r.fits⟩ : Vector UInt8 4).toList ++ (r.field ++ rest)))) r.wd
  have hmask := wordAt_append o (r.wd.store o).toList ((r.cookie.store o).toList ++
    ((Word.store o ⟨r.field.length, r.fits⟩ : Vector UInt8 4).toList ++ (r.field ++ rest)))
      r.mask
  have hcookie := wordAt_append o ((r.wd.store o).toList ++ (r.mask.store o).toList)
    ((Word.store o ⟨r.field.length, r.fits⟩ : Vector UInt8 4).toList ++ (r.field ++ rest))
      r.cookie
  have hlen :=
    wordAt_append o
    ((r.wd.store o).toList ++ (r.mask.store o).toList ++ (r.cookie.store o).toList)
    (r.field ++ rest) ⟨r.field.length, r.fits⟩
  simp only [List.append_assoc, List.length_append, Vector.length_toList,
    List.nil_append, List.length_nil] at hwd hmask hcookie hlen
  simp only [bytes, header, List.append_assoc]
  exact ⟨hwd, hmask, hcookie, hlen⟩

theorem readEvents_record (o : ByteOrder) (r : Record) (rest : List UInt8) (h : 0 < left) :
    readEvents o (r.bytes o ++ rest) left =
      (readEvents o rest (left - (r.bytes o).length)).map (r.event :: ·) := by
  obtain ⟨hwd, hmask, hcookie, hlen⟩ := r.words o rest
  have hlength : (r.bytes o ++ rest).length =
      C_INOTIFY_EVENT_SIZE + r.field.length + rest.length := by
    rw [List.length_append, r.bytes_length]
  have hfield :
      ((r.bytes o ++ rest).drop C_INOTIFY_EVENT_SIZE).take r.field.length = r.field := by
    rw [Record.bytes, List.append_assoc, List.drop_left' (r.header_length o),
      List.take_left' rfl]
  have hrest : (r.bytes o ++ rest).drop (C_INOTIFY_EVENT_SIZE + r.field.length) = rest :=
    List.drop_left' (r.bytes_length o)
  have hended : ¬ (0 < r.field.length ∧ 0 ∉ r.field) := fun ⟨hpos, hnot⟩ =>
    r.ended.elim (fun hnil => (List.length_pos_iff.1 hpos) hnil) hnot
  rw [readEvents, if_pos h, if_neg (by omega)]
  dsimp only
  rw [hlen]
  dsimp only
  rw [if_neg (by omega), hfield, if_neg hended, hrest, hwd, hmask, hcookie, r.bytes_length]
  rfl

theorem exists_record (hlen : C_INOTIFY_EVENT_SIZE + (wordAt o rest 12).val ≤ rest.length)
    (hfield : ¬ (0 < (wordAt o rest 12).val ∧
      0 ∉ (rest.drop C_INOTIFY_EVENT_SIZE).take (wordAt o rest 12).val)) :
    ∃ r : Record, r.bytes o = rest.take (C_INOTIFY_EVENT_SIZE + (wordAt o rest 12).val) ∧
      r.event = ⟨wordAt o rest 0, wordAt o rest 4, wordAt o rest 8,
        ((rest.drop C_INOTIFY_EVENT_SIZE).take (wordAt o rest 12).val).takeWhile (· ≠ 0)⟩ := by
  have hlength : ((rest.drop C_INOTIFY_EVENT_SIZE).take (wordAt o rest 12).val).length =
      (wordAt o rest 12).val := by
    rw [List.length_take, List.length_drop]
    omega
  have hended : (rest.drop C_INOTIFY_EVENT_SIZE).take (wordAt o rest 12).val = [] ∨
      0 ∈ (rest.drop C_INOTIFY_EVENT_SIZE).take (wordAt o rest 12).val := by
    by_cases hnil : (rest.drop C_INOTIFY_EVENT_SIZE).take (wordAt o rest 12).val = []
    · exact .inl hnil
    · refine .inr (by_contra fun hnot => hfield ⟨?_, hnot⟩)
      rw [← hlength]
      exact List.length_pos_iff.2 hnil
  have hfits :
      ((rest.drop C_INOTIFY_EVENT_SIZE).take (wordAt o rest 12).val).length < 256 ^ 4 := by
    rw [hlength]
    exact (wordAt o rest 12).isLt
  refine ⟨⟨wordAt o rest 0, wordAt o rest 4, wordAt o rest 8, _, hended, hfits⟩, ?_, rfl⟩
  have hword : (⟨_, hfits⟩ : Word 4) = wordAt o rest 12 := Fin.ext hlength
  rw [C_INOTIFY_EVENT_SIZE] at hlen
  rw [Record.bytes, Record.header, hword, store_wordAt (by omega), store_wordAt (by omega),
    store_wordAt (by omega), store_wordAt (by omega), List.take_add, List.drop_zero]
  congr 1
  change _ = rest.take (4 + 4 + 4 + 4)
  rw [List.take_add, List.take_add, List.take_add]

theorem readEvents_eq (h : readEvents o rest left = .ok evs) :
    ∃ rs : List Record, rs.flatMap (Record.bytes o) <+: rest ∧
    Record.Covers o rs left ∧ evs = rs.map Record.event := by
  induction left using Nat.strong_induction_on generalizing rest evs with
  | _ left ih =>
    rw [readEvents] at h
    split_ifs at h with hpos hheader
    · dsimp only at h
      split_ifs at h with hlen hfield
      cases hnext : readEvents o (rest.drop (C_INOTIFY_EVENT_SIZE + (wordAt o rest 12).val))
          (left - (C_INOTIFY_EVENT_SIZE + (wordAt o rest 12).val)) with
      | error e =>
        rw [hnext] at h
        cases h
      | ok evs' =>
        rw [hnext] at h
        cases h
        obtain ⟨r, hr, hevent⟩ := exists_record (Nat.le_of_not_lt hlen) hfield
        have hsize : (r.bytes o).length = C_INOTIFY_EVENT_SIZE + (wordAt o rest 12).val := by
          rw [hr, List.length_take]
          omega
        have hlt : left - (C_INOTIFY_EVENT_SIZE + (wordAt o rest 12).val) < left := by
          rw [C_INOTIFY_EVENT_SIZE]
          omega
        obtain ⟨rs, ⟨tail, htail⟩, hc, rfl⟩ := ih _ hlt hnext
        refine ⟨r :: rs, ⟨tail, ?_⟩, ⟨hpos, hsize ▸ hc⟩, ?_⟩
        · rw [List.flatMap_cons, List.append_assoc, htail, hr, List.take_append_drop]
        · rw [List.map_cons, hevent]
    · cases h
      exact ⟨[], List.nil_prefix, Nat.eq_zero_of_not_pos hpos, rfl⟩

theorem readEvents_records (hc : Record.Covers o rs left) (tail : List UInt8) :
    readEvents o (rs.flatMap (Record.bytes o) ++ tail) left = .ok (rs.map Record.event) := by
  induction rs generalizing left with
  | nil =>
    obtain rfl : left = 0 := hc
    rw [readEvents, if_neg (Nat.lt_irrefl 0)]
    rfl
  | cons r rs ih =>
    obtain ⟨hpos, hc⟩ := hc
    rw [List.flatMap_cons, List.append_assoc, readEvents_record o r _ hpos, ih hc]
    rfl

/-- `read_event` takes from what `read` has put into its buffer one record after another, the
name of each up to its first zero, until it has passed `n` bytes; what stands behind them makes
no difference. -/
theorem readEvent_iff (o : ByteOrder) (buf : Buffer) (n : Nat) (evs : List InotifyEvent) :
    readEvent o buf n = .ok evs ↔
      ∃ rs : List Record, rs.flatMap (Record.bytes o) <+: buf.toList ∧
      Record.Covers o rs n ∧ evs = rs.map Record.event := by
  refine ⟨readEvents_eq, ?_⟩
  rintro ⟨rs, ⟨tail, htail⟩, hc, rfl⟩
  rw [readEvent, ← htail]
  exact readEvents_records hc tail

theorem Record.covers_length (o : ByteOrder) (rs : List Record) :
    Covers o rs (rs.flatMap (bytes o)).length := by
  induction rs with
  | nil => rfl
  | cons r rs ih =>
    have hpos := r.bytes_length o
    rw [C_INOTIFY_EVENT_SIZE] at hpos
    rw [List.flatMap_cons, List.length_append]
    refine ⟨by omega, ?_⟩
    rw [Nat.add_sub_cancel_left]
    exact ih

/-- The events that the kernel writes, as many as fit, come out as they are: no read leaves the
bytes written and no name is without its end. -/
theorem readEvent_records (o : ByteOrder) (rs : List Record) (buf : Buffer)
    (h : rs.flatMap (Record.bytes o) <+: buf.toList) :
    readEvent o buf (rs.flatMap (Record.bytes o)).length = .ok (rs.map Record.event) := by
  obtain ⟨tail, htail⟩ := h
  rw [readEvent, ← htail]
  exact readEvents_records (Record.covers_length o rs) tail

end

end Misc.Inotify
