import Misc.Dotjson.Table
import Mathlib.Data.Nat.Bitwise
import Mathlib.Data.List.Induction
import Mathlib.Data.List.Perm.Subperm

namespace Misc.Dotjson
set_option autoImplicit true

/-! The entries that the slots of an object keep. -/

section slots

variable {β : Type} {l : List (Option β)}

def filled : List (Option β) → List β
  | [] => []
  | none :: l => filled l
  | some e :: l => e :: filled l

theorem filled_length_le : ∀ l : List (Option β), (filled l).length ≤ l.length
  | [] => Nat.le_refl _
  | none :: l => Nat.le_succ_of_le (filled_length_le l)
  | some _ :: l => Nat.succ_le_succ (filled_length_le l)

theorem filled_take (n : Nat) (l : List (Option β)) :
    (filled (l.take n)).Sublist (filled l) := by
  induction l generalizing n with
  | nil => simp [filled]
  | cons x l ih =>
    cases n with
    | zero => exact List.nil_sublist _
    | succ n =>
      cases x with
      | none => exact ih n
      | some e => exact (ih n).cons_cons e

theorem filled_replicate (n : Nat) : filled (List.replicate n (none : Option β)) = [] := by
  induction n with
  | zero => rfl
  | succ n ih => exact ih

theorem filled_set_free (h : l[j]? = some none) (e : β) :
    (filled (l.set j (some e))).Perm (e :: filled l) := by
  induction l generalizing j with
  | nil => cases h
  | cons x l ih =>
    cases j with
    | zero =>
      cases h
      exact .refl _
    | succ j =>
      have hp := ih (j := j) (by simpa using h)
      cases x with
      | none => exact hp
      | some y => exact (hp.cons y).trans (.swap e y _)

theorem filled_set (l : List (Option β)) (j : Nat) (e : β) :
    (filled (l.set j (some e))).Subperm (e :: filled l) := by
  induction l generalizing j with
  | nil => exact List.nil_subperm
  | cons x l ih =>
    cases j with
    | zero =>
      cases x with
      | none => exact .refl _
      | some y => exact ((List.sublist_cons_self y (filled l)).cons_cons e).subperm
    | succ j =>
      cases x with
      | none => exact ih j
      | some y => exact ((List.subperm_cons y).2 (ih j)).trans (List.Perm.swap e y _).subperm

theorem filled_full (h : ∀ j, j < l.length → l[j]? ≠ some none) :
    (filled l).length = l.length := by
  induction l with
  | nil => rfl
  | cons x l ih =>
    have hl := ih fun j hj => by simpa using h (j + 1) (by simpa using hj)
    cases x with
    | none => exact absurd rfl (h 0 (by simp))
    | some y => exact congrArg (· + 1) hl

theorem filled_even : ∀ l : List (Option β), (∀ j, j % 2 = 1 → l.getD j none = none) →
    (filled l).length ≤ (l.length + 1) / 2
  | [], _ => Nat.zero_le _
  | [none], _ => Nat.zero_le _
  | [some _], _ => by simp [filled]
  | x :: y :: l, h => by
    have hy : y = none := h 1 rfl
    have hl := filled_even l fun j hj => by simpa using h (j + 2) (by omega)
    subst hy
    cases x <;> simp only [filled, List.length_cons] <;> omega

end slots

namespace Table

variable {α : Type} {o : Table α}

def stored (o : Table α) : List (Entry α) := filled o.entries

/-- As many slots as the capacity says, a power of two, and as many taken as are counted. -/
structure Wf (o : Table α) (k : Nat) : Prop where
  cap : o.cap = 2 ^ k
  slots : o.entries.length = o.cap
  len : o.len = o.stored.length

theorem Wf.len_le (h : o.Wf k) : o.len ≤ o.cap := by
  rw [h.len, ← h.slots]
  exact filled_length_le o.entries

theorem probe_eq (hc : o.cap = 2 ^ k) (h : UInt32) (i : Nat) :
    o.probe h i = (h.toNat + i) % o.cap := by
  rw [probe, hc, Nat.and_two_pow_sub_one_eq_mod]

theorem probe_surj (hc : o.cap = 2 ^ k) (h : UInt32) (hj : j < o.cap) :
    ∃ i, i < o.cap ∧ o.probe h i = j := by
  have hr : h.toNat % o.cap < o.cap := Nat.mod_lt _ (by omega)
  refine ⟨(j + o.cap - h.toNat % o.cap) % o.cap, Nat.mod_lt _ (by omega), ?_⟩
  rw [probe_eq hc, Nat.add_mod_mod, Nat.add_mod]
  rcases Nat.lt_or_ge j (h.toNat % o.cap) with hlt | hge
  · rw [Nat.mod_eq_of_lt (a := j + o.cap - h.toNat % o.cap) (by omega),
      show h.toNat % o.cap + (j + o.cap - h.toNat % o.cap) = j + o.cap by omega,
      Nat.add_mod_right, Nat.mod_eq_of_lt hj]
  · rw [show j + o.cap - h.toNat % o.cap = (j - h.toNat % o.cap) + o.cap by omega,
      Nat.add_mod_right, Nat.mod_eq_of_lt (a := j - h.toNat % o.cap) (by omega),
      show h.toNat % o.cap + (j - h.toNat % o.cap) = j by omega, Nat.mod_eq_of_lt hj]

theorem Wf.slot_free (h : o.Wf k) (hlt : o.len < o.cap) (key : List UInt8) :
    o.entries[objectSlot o key]? = some none := by
  rw [objectSlot]
  cases hf : (List.range o.cap).find? fun i =>
      (o.entries.getD (o.probe (hash key) i) none).isNone with
  | some i =>
    have hp := List.find?_some hf
    have hi : o.probe (hash key) i < o.entries.length := by
      rw [h.slots, probe_eq h.cap]
      exact Nat.mod_lt _ (by omega)
    rw [List.getD_eq_getElem _ _ hi, Option.isNone_iff_eq_none] at hp
    exact (List.getElem?_eq_getElem hi).trans (congrArg some hp)
  | none =>
    have hall := List.find?_eq_none.1 hf
    have hfull : (filled o.entries).length = o.entries.length := by
      apply filled_full
      intro j hj hn
      obtain ⟨i, hi, rfl⟩ := probe_surj h.cap (hash key) (h.slots ▸ hj)
      apply hall i (List.mem_range.2 hi)
      rw [List.getD_eq_getElem?_getD, hn]
      rfl
    have hlen := h.len
    rw [stored, hfull, h.slots] at hlen
    omega

theorem Wf.put (h : o.Wf k) (hlt : o.len < o.cap) (e : Entry α) :
    (o.put e).Wf k ∧ (o.put e).stored.Perm (e :: o.stored) := by
  have hp := filled_set_free (h.slot_free hlt e.key) e
  refine ⟨⟨h.cap, (List.length_set ..).trans h.slots, ?_⟩, hp⟩
  rw [stored, Table.put, hp.length_eq, h.len]
  rfl

theorem put_subperm (o : Table α) (e : Entry α) : (o.put e).stored.Subperm (e :: o.stored) :=
  filled_set o.entries _ e

theorem fresh_stored (cap : Nat) : (Table.fresh cap : Table α).stored = [] :=
  filled_replicate cap

theorem Wf.fresh (k : Nat) : (Table.fresh (2 ^ k) : Table α).Wf k :=
  ⟨rfl, List.length_replicate .., by rw [fresh_stored]; rfl⟩

theorem Wf.move (h : o.Wf k) (es : List (Option (Entry α)))
    (hes : o.len + (filled es).length ≤ o.cap) :
    (o.move es).Wf k ∧ (o.move es).stored.Perm (filled es ++ o.stored) := by
  induction es generalizing o with
  | nil => exact ⟨h, .refl _⟩
  | cons x es ih =>
    cases x with
    | none => exact ih h hes
    | some e =>
      rw [filled, List.length_cons] at hes
      obtain ⟨hw, hp⟩ := h.put (by omega) e
      obtain ⟨hw', hp'⟩ := ih hw (show o.len + 1 + _ ≤ o.cap by omega)
      refine ⟨hw', hp'.trans ?_⟩
      exact (hp.append_left _).trans List.perm_middle

theorem move_subperm (o : Table α) (es : List (Option (Entry α))) :
    (o.move es).stored.Subperm (filled es ++ o.stored) := by
  induction es generalizing o with
  | nil => exact .refl _
  | cons x es ih =>
    cases x with
    | none => exact ih o
    | some e =>
      exact (ih (o.put e)).trans
        (((List.subperm_append_left _).2 (put_subperm o e)).trans List.perm_middle.subperm)

end Table

/-! ## Growth -/

section growth

variable {α : Type}

theorem minBucket_pow (hk : k < 32) : minBucket (2 ^ k + 1) = 2 ^ (k + 1) := by
  have h : ∀ k : Fin 32, minBucket (2 ^ k.val + 1) = 2 ^ (k.val + 1) := by decide +kernel
  exact h ⟨k, hk⟩

/-- The shifts of `min_bucket` reach 32 bits: the next size is no power of two. -/
theorem minBucket_stuck : minBucket (2 ^ 32 + 1) = 2 ^ 33 - 1 := by decide +kernel

theorem Table.Wf.grow {o : Table α} (h : o.Wf k) (hk : k < 32) (hfull : o.len = o.cap) :
    (objectGrow (some o)).Wf (k + 1) ∧ (objectGrow (some o)).stored.Perm o.stored := by
  have hlt : o.cap < 2 ^ (k + 1) := by
    rw [h.cap, Nat.pow_succ]
    have := Nat.two_pow_pos k
    omega
  have htake : o.entries.take o.len = o.entries := by
    rw [hfull, ← h.slots, List.take_length]
  have hm := (Wf.fresh (α := α) (k + 1)).move o.entries
    (by
      have hle := filled_length_le o.entries
      rw [h.slots] at hle
      show 0 + _ ≤ 2 ^ (k + 1)
      omega)
  rw [Table.fresh_stored, List.append_nil] at hm
  rw [objectGrow, hfull, h.cap, minBucket_pow hk, ← h.cap, ← hfull, htake, if_neg (by omega)]
  exact hm

theorem Table.Wf.add {o : Table α} (h : o.Wf k) (hk : k ≤ 32) (hlt : o.len < 2 ^ 32)
    (e : Entry α) : ∃ k', k' ≤ 32 ∧ (objectAdd (some o) e).Wf k' ∧
      (objectAdd (some o) e).stored.Perm (e :: o.stored) := by
  rw [objectAdd]
  by_cases hfull : o.len = o.cap
  · rw [if_pos hfull]
    have hk' : k < 32 := by
      rw [hfull, h.cap] at hlt
      exact (Nat.pow_lt_pow_iff_right (by omega)).1 hlt
    obtain ⟨hw, hp⟩ := h.grow hk' hfull
    obtain ⟨hw', hp'⟩ := hw.put (e := e) (by
      rw [hw.len, hp.length_eq, ← h.len, hfull, h.cap, hw.cap]
      exact Nat.pow_lt_pow_right (by omega) (by omega))
    exact ⟨k + 1, hk', hw', hp'.trans (hp.cons e)⟩
  · rw [if_neg hfull]
    have hle := h.len_le
    obtain ⟨hw, hp⟩ := h.put (by omega) e
    exact ⟨k, hk, hw, hp⟩

theorem objectAdd_none (e : Entry α) :
    (objectAdd none e).Wf 0 ∧ (objectAdd none e).stored.Perm [e] :=
  (Table.Wf.fresh 0).put (show 0 < 1 from Nat.one_pos) e

theorem objectGrow_subperm (o : Table α) : (objectGrow (some o)).stored.Subperm o.stored := by
  rw [objectGrow]
  split
  · exact .refl _
  · have hm := Table.move_subperm (Table.fresh (minBucket (o.len + 1))) (o.entries.take o.len)
    rw [Table.fresh_stored, List.append_nil] at hm
    exact hm.trans (filled_take _ _).subperm

theorem objectAdd_subperm (o : Table α) (e : Entry α) :
    (objectAdd (some o) e).stored.Subperm (e :: o.stored) := by
  rw [objectAdd]
  split
  · exact (Table.put_subperm _ e).trans ((List.subperm_cons e).2 (objectGrow_subperm o))
  · exact Table.put_subperm o e

/-- The object that 32-bit growth ends in: only its even slots are ever found. -/
structure Table.Lined (o : Table α) : Prop where
  cap : o.cap = 2 ^ 33 - 1
  slots : o.entries.length = o.cap
  odd : ∀ j, j % 2 = 1 → o.entries.getD j none = none

namespace Table.Lined

variable {o : Table α}

theorem fresh : (Table.fresh (2 ^ 33 - 1) : Table α).Lined := by
  refine ⟨rfl, List.length_replicate .., ?_⟩
  intro j _
  rw [Table.fresh, List.getD_eq_getElem?_getD, List.getElem?_replicate]
  split <;> rfl

theorem probe_even (h : o.Lined) (x : UInt32) (i : Nat) : o.probe x i % 2 = 0 := by
  have hm := Nat.and_mod_two_pow (a := x.toNat + i) (b := 2 ^ 33 - 1 - 1) (n := 1)
  rw [Nat.pow_one, show (2 ^ 33 - 1 - 1) % 2 = 0 from rfl, Nat.and_zero] at hm
  rw [probe, h.cap]
  exact hm

theorem put (h : o.Lined) (e : Entry α) : (o.put e).Lined := by
  refine ⟨h.cap, (List.length_set ..).trans h.slots, ?_⟩
  intro j hj
  have hne : objectSlot o e.key = j → o.entries.length ≤ j := by
    rintro rfl
    rw [objectSlot] at hj ⊢
    split at hj
    · next i _ =>
      have := h.probe_even (hash e.key) i
      omega
    · exact h.slots.le
  rw [Table.put, List.getD_eq_getElem?_getD, List.getElem?_set]
  split
  · next hs => rw [if_neg (by have := hne hs; omega)]; rfl
  · exact (List.getD_eq_getElem?_getD ..).symm.trans (h.odd j hj)

theorem move (h : o.Lined) (es : List (Option (Entry α))) : (o.move es).Lined := by
  induction es generalizing o with
  | nil => exact h
  | cons x es ih =>
    cases x with
    | none => exact ih h
    | some e => exact ih (h.put e)

theorem stored_le (h : o.Lined) : o.stored.length ≤ 2 ^ 32 := by
  have hle := filled_even o.entries h.odd
  rw [h.slots, h.cap] at hle
  exact hle

theorem add (h : o.Lined) (hlt : o.len < 2 ^ 33 - 1) (e : Entry α) :
    (objectAdd (some o) e).Lined ∧ (objectAdd (some o) e).len = o.len + 1 := by
  rw [objectAdd, if_neg (by rw [h.cap]; omega)]
  exact ⟨h.put e, rfl⟩

end Table.Lined

theorem Table.move_len (o : Table α) (es : List (Option (Entry α))) :
    (o.move es).len = o.len + (filled es).length := by
  induction es generalizing o with
  | nil => rfl
  | cons x es ih =>
    cases x with
    | none => exact ih o
    | some e => exact (ih (o.put e)).trans (Nat.add_right_comm ..)

theorem Table.Wf.add_stuck {o : Table α} (h : o.Wf k) (hk : k ≤ 32) (hlen : o.len = 2 ^ 32)
    (e : Entry α) : (objectAdd (some o) e).Lined ∧ (objectAdd (some o) e).len = 2 ^ 32 + 1 := by
  have hcap : o.cap = 2 ^ 32 := by
    have hle := h.len_le
    have hpow := Nat.pow_le_pow_right (n := 2) (by omega) hk
    rw [← h.cap] at hpow
    omega
  have htake : o.entries.take o.len = o.entries := by
    rw [hlen, ← hcap, ← h.slots, List.take_length]
  have hg : objectGrow (some o) = (Table.fresh (2 ^ 33 - 1)).move o.entries := by
    rw [objectGrow, htake, hlen, minBucket_stuck, if_neg (by omega)]
  rw [objectAdd, if_pos (hlen.trans hcap.symm), hg]
  refine ⟨(Table.Lined.fresh.move _).put e, ?_⟩
  show ((Table.fresh (2 ^ 33 - 1)).move o.entries).len + 1 = _
  rw [Table.move_len, ← Table.stored, ← h.len, hlen]
  exact congrArg (· + 1) (Nat.zero_add (2 ^ 32))

/-! ## Runs of insertions -/

/-- The object after a list of entries has been added to it. -/
def addAll (o : Option (Table α)) (es : List (Entry α)) : Option (Table α) :=
  es.foldl (fun o e => some (objectAdd o e)) o

theorem addAll_concat (es : List (Entry α)) (e : Entry α) :
    addAll none (es ++ [e]) = some (objectAdd (addAll none es) e) := by
  rw [addAll, List.foldl_append]
  rfl

theorem addAll_cons_some (e : Entry α) (es : List (Entry α)) :
    ∃ o, addAll none (e :: es) = some o := by
  cases List.eq_nil_or_concat (e :: es) with
  | inl h => cases h
  | inr h =>
    obtain ⟨l, d, h⟩ := h
    rw [h, List.concat_eq_append, addAll_concat]
    exact ⟨_, rfl⟩

/-- Up to `2 ^ 32` members are all kept. -/
theorem addAll_perm {es : List (Entry α)} (hlen : es.length ≤ 2 ^ 32)
    (h : addAll none es = some o) : ∃ k, k ≤ 32 ∧ o.Wf k ∧ o.stored.Perm es := by
  induction es using List.reverseRecOn generalizing o with
  | nil => cases h
  | append_singleton es e ih =>
    rw [addAll_concat] at h
    rw [List.length_append, List.length_singleton] at hlen
    cases h
    cases ho : addAll none es with
    | none =>
      have hnil : es = [] := by
        cases es with
        | nil => rfl
        | cons d es =>
          obtain ⟨o, hs⟩ := addAll_cons_some d es
          cases ho.symm.trans hs
      subst hnil
      exact ⟨0, Nat.zero_le _, objectAdd_none e⟩
    | some o =>
      obtain ⟨k, hk, hw, hp⟩ := ih (by omega) ho
      obtain ⟨k', hk', hw', hp'⟩ := hw.add hk (by rw [hw.len, hp.length_eq]; omega) e
      exact ⟨k', hk', hw', (hp'.trans (hp.cons e)).trans (List.perm_append_singleton e es).symm⟩

/-- Behind that the object stays in the state in which its odd slots are out of reach. -/
theorem addAll_lined {es : List (Entry α)} (hlt : 2 ^ 32 < es.length)
    (hle : es.length ≤ 2 ^ 33 - 1) (h : addAll none es = some o) :
    o.Lined ∧ o.len = es.length := by
  induction es using List.reverseRecOn generalizing o with
  | nil => cases h
  | append_singleton es e ih =>
    rw [addAll_concat] at h
    rw [List.length_append, List.length_singleton] at hlt hle ⊢
    cases h
    obtain ⟨o, ho⟩ : ∃ o, addAll none es = some o := by
      cases es with
      | nil => exact absurd hlt (by rw [List.length_nil]; decide)
      | cons d es => exact addAll_cons_some d es
    rw [ho]
    rcases Nat.lt_or_ge (2 ^ 32) es.length with h' | h'
    · obtain ⟨hl, hn⟩ := ih h' (by omega) ho
      rw [← hn]
      exact hl.add (by omega) e
    · obtain ⟨k, hk, hw, hp⟩ := addAll_perm h' ho
      have hlen : es.length = 2 ^ 32 := by omega
      rw [hlen]
      exact hw.add_stuck hk (by rw [hw.len, hp.length_eq, hlen]) e

theorem addAll_subperm {es : List (Entry α)} (h : addAll none es = some o) :
    o.stored.Subperm es := by
  induction es using List.reverseRecOn generalizing o with
  | nil => cases h
  | append_singleton es e ih =>
    rw [addAll_concat] at h
    cases h
    refine List.Subperm.trans ?_ (List.perm_append_singleton e es).symm.subperm
    cases ho : addAll none es with
    | none =>
      exact (objectAdd_none e).2.subperm.trans ((List.nil_sublist es).cons_cons e).subperm
    | some o => exact (objectAdd_subperm o e).trans ((List.subperm_cons e).2 (ih ho))

theorem addAll_lost {es : List (Entry α)} (hlt : 2 ^ 32 < es.length)
    (h : addAll none es = some o) : o.stored.length < es.length := by
  induction es using List.reverseRecOn generalizing o with
  | nil => cases h
  | append_singleton es e ih =>
    have hcat := addAll_concat es e
    obtain ⟨o', ho⟩ : ∃ o, addAll none es = some o := by
      cases es with
      | nil => exact absurd hlt (by rw [List.nil_append, List.length_singleton]; decide)
      | cons d es => exact addAll_cons_some d es
    rw [List.length_append, List.length_singleton] at hlt ⊢
    rcases Nat.lt_or_ge (2 ^ 32) es.length with h' | h'
    · rw [h, ho] at hcat
      cases hcat
      have hle := (objectAdd_subperm o' e).length_le
      have := ih h' ho
      rw [List.length_cons] at hle
      omega
    · have hl := (addAll_lined
        (by rw [List.length_append, List.length_singleton]; omega)
        (by rw [List.length_append, List.length_singleton]; omega) h).1.stored_le
      omega

end growth

end Misc.Dotjson
