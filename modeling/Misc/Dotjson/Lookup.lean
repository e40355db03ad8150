import Misc.Lib.Probing
import Misc.Dotjson.DecodesGrammar

namespace Misc.Dotjson
open Misc.Lib.Probing
set_option autoImplicit true

/-- The string that a `char *` ends at its NUL, which is what `hash` and `strcmp` read. -/
def cString (s : List UInt8) : List UInt8 := s.takeWhile (· != 0)

/-- The loop of `object_find` with `n` turns left, the next of them with `i`. -/
def findLoop (o : Table α) (key : List UInt8) (h : UInt32) : Nat → Nat → Nat
  | 0, _ => o.cap
  | n + 1, i =>
    match o.entries.getD (o.probe h i) none with
    | none => o.cap
    | some entry =>
      if entry.keyhash = h ∧ cString entry.key = cString key then o.probe h i
      else findLoop o key h n (i + 1)

def objectFind (o : Table α) (key : List UInt8) : Nat := findLoop o key (hash key) o.cap 0

def dotjsonObjectGet (o : Table α) (key : List UInt8) : Option α :=
  let i := objectFind o key
  if i < o.cap then (o.entries.getD i none).map Entry.val else none

section
variable {α : Type} {o : Table α} {e e' : Entry α} {key : List UInt8}

theorem hash_congr (h : cString s = cString s') : hash s = hash s' := by
  rw [hash, hash]
  exact congrArg (List.foldl _ 1313) h

/-- `object_find` stops at an entry with the hash and the name. -/
def Entry.hits (key : List UInt8) (e : Entry α) : Bool :=
  e.keyhash = hash key ∧ cString e.key = cString key

theorem findLoop_eq (o : Table α) (key : List UInt8) (n i : Nat) :
    findLoop o key (hash key) n i =
      (search (Entry.hits key) (o.probe (hash key)) o.entries n i).getD o.cap := by
  induction n generalizing i with
  | zero => rfl
  | succ n ih =>
    rw [findLoop, search]
    cases o.entries.getD (o.probe (hash key) i) none with
    | none => rfl
    | some e =>
      dsimp only
      by_cases hhit : e.keyhash = hash key ∧ cString e.key = cString key
      · rw [if_pos hhit, Entry.hits, if_pos (decide_eq_true hhit)]
        rfl
      · rw [if_neg hhit, Entry.hits, if_neg (by rwa [decide_eq_true_eq]), ih]

/-- An object whose entries are found along the sequences of their names. -/
structure Table.Probed (o : Table α) : Prop where
  slots : o.entries.length = o.cap
  hashed : ∀ j e, Holds o.entries j e → e.keyhash = hash e.key
  chained : Chained (fun e => o.probe (hash e.key)) o.cap o.entries

namespace Table

theorem Probed.fresh (cap : Nat) : (Table.fresh cap : Table α).Probed :=
  ⟨List.length_replicate .., fun j e h => absurd h (not_holds_replicate cap j e),
    chained_replicate _ _ cap⟩

theorem Probed.put (h : o.Probed) (he : e.keyhash = hash e.key) : (o.put e).Probed := by
  have hslot : objectSlot o e.key = o.cap ∨
      ∃ i < o.cap, objectSlot o e.key = o.probe (hash e.key) i ∧
      ∀ i' < i, Taken o.entries (o.probe (hash e.key) i') := by
    rw [objectSlot]
    cases hf : (List.range o.cap).find? fun i =>
        (o.entries.getD (o.probe (hash e.key) i) none).isNone with
    | none => exact .inl rfl
    | some i =>
      obtain ⟨-, hi, hbefore⟩ := List.find?_range_eq_some.1 hf
      refine .inr ⟨i, List.mem_range.1 hi, rfl, ?_⟩
      intro i' hi'
      have hnot := hbefore i' hi'
      cases hget : o.entries.getD (o.probe (hash e.key) i') none with
      | none =>
        rw [hget] at hnot
        cases hnot
      | some e' => exact ⟨e', holds_of_getD hget⟩
  rcases hslot with hcap | ⟨i, hi, hslot, hbefore⟩
  · have hset : (o.put e).entries = o.entries := by
      rw [Table.put, hcap]
      exact List.set_eq_of_length_le h.slots.le
    exact ⟨by rw [hset]; exact h.slots, by rw [hset]; exact h.hashed, by
      rw [hset]; exact h.chained⟩
  · refine ⟨(List.length_set ..).trans h.slots, ?_, ?_⟩
    · intro j e' hj
      rw [Holds, Table.put, List.getElem?_set] at hj
      split_ifs at hj
      · cases hj
        exact he
      · exact h.hashed j e' hj
    · rw [Table.put, hslot]
      exact h.chained.set hi hbefore

theorem Probed.move (h : o.Probed) (es : List (Option (Entry α)))
    (hes : ∀ e ∈ filled es, e.keyhash = hash e.key) : (o.move es).Probed := by
  induction es generalizing o with
  | nil => exact h
  | cons x es ih =>
    cases x with
    | none => exact ih h hes
    | some e =>
      rw [filled, List.forall_mem_cons] at hes
      exact ih (h.put hes.1) hes.2

theorem mem_filled {l : List (Option β)} {x : β} : x ∈ filled l ↔ ∃ j, Holds l j x := by
  induction l with
  | nil => simp [filled, Holds]
  | cons y l ih =>
    have hcons : (∃ j, Holds (y :: l) j x) ↔ y = some x ∨ ∃ j, Holds l j x := by
      constructor
      · rintro ⟨j, hj⟩
        cases j with
        | zero => exact .inl (by simpa [Holds] using hj)
        | succ j => exact .inr ⟨j, hj⟩
      · rintro (rfl | ⟨j, hj⟩)
        · exact ⟨0, rfl⟩
        · exact ⟨j + 1, hj⟩
    rw [hcons, ← ih]
    cases y with
    | none => simp [filled]
    | some y => simp [filled, eq_comm]

theorem slot_unique {l : List (Option β)} {f : β → γ} {x y : β} (h : ((filled l).map f).Nodup)
    (hx : Holds l j x) (hy : Holds l k y) (hf : f x = f y) : j = k := by
  induction l generalizing j k with
  | nil => cases hx
  | cons z l ih =>
    have hnot (z : β) (hz : ((filled (some z :: l)).map f).Nodup) {i : Nat} {w : β}
        (hw : Holds l i w) : f w ≠ f z := by
      rw [filled, List.map_cons, List.nodup_cons] at hz
      intro he
      exact hz.1 (he ▸ List.mem_map_of_mem (mem_filled.2 ⟨i, hw⟩))
    cases j with
    | zero =>
      cases hx
      cases k with
      | zero => rfl
      | succ k => exact absurd hf.symm (hnot x h hy)
    | succ j =>
      cases k with
      | zero =>
        cases hy
        exact absurd hf (hnot y h hx)
      | succ k =>
        have hl : ((filled l).map f).Nodup := by
          cases z with
          | none => exact h
          | some z => exact (List.nodup_cons.1 h).2
        exact congrArg (· + 1) (ih hl hx hy)

theorem Probed.get (h : o.Probed) (hd : (o.stored.map fun e => cString e.key).Nodup)
    (he : e ∈ o.stored) (hk : cString e.key = cString key) :
    dotjsonObjectGet o key = some e.val := by
  obtain ⟨j, hj⟩ := mem_filled.1 he
  obtain ⟨i, hi, hseq, htaken⟩ := h.chained j e hj
  have hhash : hash e.key = hash key := hash_congr hk
  dsimp only at hseq htaken
  rw [hhash] at hseq htaken
  have hhit : e.hits key = true := decide_eq_true ⟨(h.hashed j e hj).trans hhash, hk⟩
  have honly : ∀ j' e', Holds o.entries j' e' → e'.hits key = true →
      j' = o.probe (hash key) i := by
    intro j' e' hj' hhit'
    rw [hseq]
    exact slot_unique hd hj' hj ((of_decide_eq_true hhit').2.trans hk.symm)
  have hsearch : search (Entry.hits key) (o.probe (hash key)) o.entries o.cap 0 =
      some (o.probe (hash key) i) :=
    search_eq hhit (hseq ▸ hj) honly (Nat.zero_le i) (by omega) htaken
  have hlt : j < o.cap := by
    rw [← h.slots]
    exact (List.getElem?_eq_some_iff.1 hj).1
  rw [dotjsonObjectGet, objectFind, findLoop_eq, hsearch, hseq,
    Option.getD_some, if_pos hlt, hj.getD]
  rfl

theorem get_eq_none (h : ∀ e ∈ o.stored, cString e.key ≠ cString key) :
    dotjsonObjectGet o key = none := by
  have hsearch : search (Entry.hits key) (o.probe (hash key)) o.entries o.cap 0 = none :=
    search_eq_none (fun j e hj => decide_eq_false fun hhit =>
      h e (mem_filled.2 ⟨j, hj⟩) hhit.2) _ _
  rw [dotjsonObjectGet, objectFind, findLoop_eq, hsearch, Option.getD_none,
    if_neg (Nat.lt_irrefl _)]

theorem Probed.add (h : o.Probed) (he : e.keyhash = hash e.key) :
    (objectAdd (some o) e).Probed := by
  have hgrow : (objectGrow (some o)).Probed := by
    rw [objectGrow]
    split_ifs
    · exact h
    · apply (Probed.fresh _).move _
      intro e he
      obtain ⟨j, hj⟩ := mem_filled.1 ((filled_take _ _).subset he)
      exact h.hashed j e hj
  rw [objectAdd]
  split_ifs
  · exact hgrow.put he
  · exact h.put he

end Table

theorem addAll_probed {es : List (Entry α)} (hes : ∀ e ∈ es, e.keyhash = hash e.key)
    (h : addAll none es = some o) : o.Probed := by
  induction es using List.reverseRecOn generalizing o with
  | nil => cases h
  | append_singleton es e ih =>
    rw [addAll_concat] at h
    cases h
    have he := hes e (List.mem_append_right _ (List.mem_singleton_self e))
    cases ho : addAll none es with
    | none => exact (Table.Probed.fresh 1).put he
    | some o => exact (ih (fun e' he' => hes e' (List.mem_append_left _ he')) ho).add he

end

def tableOf (ms : List (List UInt8 × Json)) : Table Node :=
  (buildMembers none ms).getD (objectGrow none)

/-- The object is a hash map of the members. -/
structure ObjectMap (o : Table Node) (ms : List (List UInt8 × Json)) : Prop where
  get : (ms.map fun m => cString m.1).Nodup → ∀ s t, (s, t) ∈ ms →
    dotjsonObjectGet o s = some t.build
  missing : (ms.map fun m => cString m.1).Nodup → ∀ key, (∀ m ∈ ms, cString m.1 ≠ cString key) →
    dotjsonObjectGet o key = none
  len : o.len = ms.length
  len_le : o.len ≤ o.cap
  cap : ∃ k, o.cap = 2 ^ k
  slots : o.entries.length = o.cap
  stored : o.stored.Perm (ms.map entryOf)

theorem tableOf_nil : tableOf [] = .fresh 1 := rfl

theorem tableOf_cons (m : List UInt8 × Json) (ms : List (List UInt8 × Json)) :
    addAll none ((m :: ms).map entryOf) = some (tableOf (m :: ms)) := by
  obtain ⟨o, ho⟩ := addAll_cons_some (entryOf m) (ms.map entryOf)
  rw [tableOf, buildMembers_eq, List.map_cons, ho]
  rfl

theorem ObjectMap.of_probed {o : Table Node} {ms : List (List UInt8 × Json)} {k : Nat}
    (hp : o.Probed) (hw : o.Wf k) (hs : o.stored.Perm (ms.map entryOf)) : ObjectMap o ms := by
  have hnames : (o.stored.map fun e => cString e.key).Perm (ms.map fun m => cString m.1) := by
    have hmap := hs.map fun e => cString e.key
    rwa [List.map_map] at hmap
  constructor
  · intro hd s t hm
    exact hp.get (hnames.nodup_iff.2 hd) (hs.mem_iff.2 (List.mem_map_of_mem hm)) rfl
  · intro _ key hkey
    apply Table.get_eq_none
    intro e he
    obtain ⟨m, hm, rfl⟩ := List.mem_map.1 (hs.mem_iff.1 he)
    exact hkey m hm
  · rw [hw.len, hs.length_eq, List.length_map]
  · exact hw.len_le
  · exact ⟨k, hw.cap⟩
  · exact hw.slots
  · exact hs

/-- All members of an object are kept and found exactly if there are no more than `2 ^ 32`. -/
theorem objectMap_iff (ms : List (List UInt8 × Json)) :
    ObjectMap (tableOf ms) ms ↔ ms.length ≤ 2 ^ 32 := by
  cases ms with
  | nil =>
    rw [tableOf_nil]
    exact iff_of_true (.of_probed (.fresh 1) (.fresh 0) (.refl _)) (Nat.zero_le _)
  | cons m ms =>
    have hadd := tableOf_cons m ms
    constructor
    · intro h
      by_contra hlt
      have hlost := addAll_lost (by rw [List.length_map]; omega) hadd
      rw [h.stored.length_eq] at hlost
      exact Nat.lt_irrefl _ hlost
    · intro hlen
      obtain ⟨k, -, hw, hs⟩ := addAll_perm (by rwa [List.length_map]) hadd
      refine .of_probed (addAll_probed ?_ hadd) hw hs
      intro e he
      obtain ⟨m, -, rfl⟩ := List.mem_map.1 he
      rfl

/-- Each object text that the decoder accepts becomes a hash map of its members. -/
def DecodesMap (s : List UInt8) : Prop :=
  ∀ n, n ≠ 0 → (dotjsonDecode s).1 = n → ∃ o, dotjsonDecode s = (n, some (.object o)) ∧
    (∃ ms, IsText (s.take n) ms) ∧ ∀ ms, IsText (s.take n) ms → ObjectMap o ms

theorem dotjsonDecode_table (hn : n ≤ s.length) (h : IsText (s.take n) ms) :
    dotjsonDecode s = (n, some (.object (tableOf ms))) := by
  rw [dotjsonDecode_text hn h, Json.build, tableOf]

/-- The members of every object text are kept and found exactly if it has no more than `2 ^
32`. -/
theorem decodes_map_iff (s : List UInt8) : DecodesMap s ↔
    ∀ n ms, n ≤ s.length → IsText (s.take n) ms → ms.length ≤ 2 ^ 32 := by
  constructor
  · intro h n ms hn hms
    have hdecode := dotjsonDecode_table hn hms
    have hpos := hms.length_pos
    rw [List.length_take_of_le hn] at hpos
    obtain ⟨o, ho, -, hmap⟩ := h n (Nat.ne_of_gt hpos) (by rw [hdecode])
    rw [hdecode] at ho
    cases ho
    exact (objectMap_iff ms).1 (hmap ms hms)
  · intro h n hn hcount
    obtain ⟨hle, ms, hms⟩ := (dotjsonDecode_count hn).1 hcount
    refine ⟨_, dotjsonDecode_table hle hms, ⟨ms, hms⟩, ?_⟩
    intro ms' hms'
    have heq : tableOf ms = tableOf ms' := by
      have htable := (dotjsonDecode_table hle hms).symm.trans (dotjsonDecode_table hle hms')
      rw [Prod.mk.injEq, Option.some.injEq, Node.object.injEq] at htable
      exact htable.2
    rw [heq]
    exact (objectMap_iff ms').2 (h n ms' hle hms')

/-- Of `2 ^ 32 + 1` members one is lost. -/
theorem not_decodesMap_crowded : ¬ DecodesMap crowded := by
  intro h
  have hle := (decodes_map_iff _).1 h _ _ (Nat.le_refl _) isText_crowded
  rw [List.length_replicate] at hle
  omega

end Misc.Dotjson
