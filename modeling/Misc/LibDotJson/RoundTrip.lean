import Misc.LibDotJson.Integers
import Misc.LibDotJson.Language

namespace Misc.LibDotJson
set_option autoImplicit true

variable {F : Type}

/-! ## Trees -/

mutual

/-- Every node of a tree has a property. -/
def JNode.All (P : JNode F → Prop) : JNode F → Prop
  | .array xs => P (.array xs) ∧ AllElements P xs
  | .object ps => P (.object ps) ∧ AllMembers P ps
  | x => P x

def AllElements (P : JNode F → Prop) : List (JNode F) → Prop
  | [] => True
  | x :: xs => x.All P ∧ AllElements P xs

def AllMembers (P : JNode F → Prop) : List (Str × JNode F) → Prop
  | [] => True
  | p :: ps => p.2.All P ∧ AllMembers P ps

end

/-- Any node but a float; the keys of an object are distinct. -/
def JNode.Basic : JNode F → Prop
  | .float _ => False
  | .object ps => (ps.map Prod.fst).Nodup
  | _ => True

/-- No quote and no backslash: what `ToString` would have to escape. -/
def PlainStr (s : Str) : Prop := ∀ c ∈ s, c ≠ ch '"' ∧ c ≠ ch '\\'

def JNode.Plain : JNode F → Prop
  | .string s => PlainStr s
  | .object ps => ∀ p ∈ ps, PlainStr p.1
  | _ => True

/-! ## A plain tree is printed as its own text -/

theorem StrBody.self (h : PlainStr s) : StrBody s s := by
  induction s with
  | nil => exact .nil
  | cons c s ih =>
    have hc := h c List.mem_cons_self
    exact .plain hc.1 hc.2 (ih fun d hd => h d (List.mem_cons_of_mem _ hd))

theorem IsString.quoted (h : PlainStr s) : IsString (quoted s) s := ⟨s, .self h, rfl⟩

theorem foldl_set (acc ps : List (Str × JNode F)) (h : ((acc ++ ps).map Prod.fst).Nodup) :
    ps.foldl (fun pairs p => JObject.set pairs p.1 p.2) acc = acc ++ ps := by
  induction ps generalizing acc with
  | nil => exact (List.append_nil acc).symm
  | cons p ps ih =>
    have hnew : ∀ q ∈ acc, q.1 ≠ p.1 := by
      intro q hq he
      rw [List.map_append, List.nodup_append] at h
      exact h.2.2 q.1 (List.mem_map_of_mem hq) p.1 List.mem_cons_self he
    rw [List.foldl_cons, JObject.set_new hnew, ih, List.append_assoc, List.singleton_append]
    rwa [List.append_assoc, List.singleton_append]

theorem JObject.ofMembers_nodup {ps : List (Str × JNode F)} (h : (ps.map Prod.fst).Nodup) :
    ofMembers ps = ps :=
  foldl_set [] ps h

theorem Space.nil : Space [] := nofun

section

variable [Single F]

mutual

theorem JNode.isValue : (x : JNode F) → x.All JNode.Basic → x.All JNode.Plain →
    IsValue x.toString x
  | .null, _, _ => .null rfl
  | .false, _, _ => .false rfl
  | .true, _, _ => .true rfl
  | .int i, _, _ => .number (isNumber_intToString i)
  | .float _, hbasic, _ => hbasic.elim
  | .string _, _, hplain => .string (.quoted hplain)
  | .array [], _, _ => .emptyArray .nil
  | .array (x :: xs), hbasic, hplain =>
    .array (isElements (x :: xs) (List.cons_ne_nil x xs) hbasic.2 hplain.2)
  | .object [], _, _ => .emptyObject .nil
  | .object (p :: ps), hbasic, hplain => by
    have h := isMembers (p :: ps) (List.cons_ne_nil p ps) hbasic.2 hplain.2 hplain.1
    have hobject := IsValue.object h
    rw [JObject.ofMembers_nodup hbasic.1] at hobject
    exact hobject

theorem isElements : (xs : List (JNode F)) → xs ≠ [] → AllElements JNode.Basic xs →
    AllElements JNode.Plain xs → IsElements (JArray.elements xs) xs
  | [], hne, _, _ => absurd rfl hne
  | [x], _, hbasic, hplain =>
    .one (u := []) (b := x.toString) (v := []) .nil (x.isValue hbasic.1 hplain.1) .nil
  | x :: y :: ys, _, hbasic, hplain =>
    have hrest := isElements (y :: ys) (List.cons_ne_nil y ys) hbasic.2 hplain.2
    .cons (u := []) (b := x.toString) (v := []) .nil (x.isValue hbasic.1 hplain.1) .nil hrest

theorem isMembers : (ps : List (Str × JNode F)) → ps ≠ [] → AllMembers JNode.Basic ps →
    AllMembers JNode.Plain ps → (∀ p ∈ ps, PlainStr p.1) → IsMembers (JObject.members ps) ps
  | [], hne, _, _, _ => absurd rfl hne
  | [p], _, hbasic, hplain, hkeys =>
    have hk := IsString.quoted (hkeys p List.mem_cons_self)
    .one (u := []) (w := []) (y := []) (b := p.2.toString) (v := []) .nil hk .nil .nil
      (p.2.isValue hbasic.1 hplain.1) .nil
  | p :: q :: qs, _, hbasic, hplain, hkeys =>
    have hk := IsString.quoted (hkeys p List.mem_cons_self)
    have hrest := isMembers (q :: qs) (List.cons_ne_nil q qs) hbasic.2 hplain.2 fun r hr =>
      hkeys r (List.mem_cons_of_mem _ hr)
    .cons (u := []) (w := []) (y := []) (b := p.2.toString) (v := []) .nil hk .nil .nil
      (p.2.isValue hbasic.1 hplain.1) .nil hrest

end

end

/-! ## What a value is read from is at least as long as its text -/

mutual

/-- The length of the text of a tree; of a float, nothing is counted. -/
def JNode.size : JNode F → Nat
  | .null => 4
  | .false => 5
  | .true => 4
  | .int i => (intToString i).length
  | .float _ => 0
  | .string s => s.length + 2
  | .array xs => max 1 (sizes xs) + 1
  | .object ps => max 1 (memberSizes ps) + 1

/-- The elements, with a character behind each: a comma or the bracket. -/
def sizes : List (JNode F) → Nat
  | [] => 0
  | x :: xs => x.size + 1 + sizes xs

def memberSizes : List (Str × JNode F) → Nat
  | [] => 0
  | p :: ps => p.1.length + 3 + p.2.size + 1 + memberSizes ps

end

theorem sizes_append (xs : List (JNode F)) (x : JNode F) :
    sizes (xs ++ [x]) = sizes xs + (x.size + 1) := by
  induction xs with
  | nil => exact (Nat.zero_add _).symm
  | cons y xs ih =>
    rw [List.cons_append, sizes, sizes, ih]
    omega

theorem memberSizes_set (ps : List (Str × JNode F)) (key : Str) (x : JNode F) :
    memberSizes (JObject.set ps key x) ≤ memberSizes ps + (key.length + 3 + x.size + 1) := by
  induction ps with
  | nil =>
    rw [JObject.set_nil, memberSizes, memberSizes, memberSizes]
    dsimp only
    omega
  | cons p ps ih =>
    rw [JObject.set_cons]
    split_ifs with h
    · rw [memberSizes, memberSizes, h]
      dsimp only
      omega
    · rw [memberSizes, memberSizes]
      omega

theorem AllElements.append {P : JNode F → Prop} {xs : List (JNode F)} (h : AllElements P xs)
    (hx : x.All P) : AllElements P (xs ++ [x]) := by
  induction xs with
  | nil => exact ⟨hx, trivial⟩
  | cons y xs ih => exact ⟨h.1, ih h.2⟩

theorem AllMembers.set {P : JNode F → Prop} {ps : List (Str × JNode F)} (h : AllMembers P ps)
    (hx : x.All P) (key : Str) : AllMembers P (JObject.set ps key x) := by
  induction ps with
  | nil => exact ⟨hx, trivial⟩
  | cons p ps ih =>
    rw [JObject.set_cons]
    split_ifs
    · exact ⟨hx, h.2⟩
    · exact ⟨h.1, ih h.2⟩

theorem forall_key_set {P : Str → Prop} {ps : List (Str × JNode F)} (h : ∀ p ∈ ps, P p.1)
    (hkey : P key) (x : JNode F) : ∀ p ∈ JObject.set ps key x, P p.1 := by
  induction ps with
  | nil =>
    rw [JObject.set_nil]
    intro p hp
    rwa [List.mem_singleton.1 hp]
  | cons q ps ih =>
    obtain ⟨hq, hps⟩ := List.forall_mem_cons.1 h
    rw [JObject.set_cons]
    split_ifs
    · exact List.forall_mem_cons.2 ⟨hq, hps⟩
    · exact List.forall_mem_cons.2 ⟨hq, ih hps⟩

namespace Frame

/-- The characters that the contents of a container take up to a step of its loop. -/
def load : Frame F → Nat → Nat
  | .array xs, step => if step = 1 then sizes xs else sizes xs - 1
  | .object key ps, step =>
    if step = 1 then memberSizes ps
    else if step = 2 then memberSizes ps + key.length + 2
    else if step = 3 then memberSizes ps + key.length + 3
    else memberSizes ps - 1

/-- The first step is that of an empty container. -/
def Fresh (frame : Frame F) (step : Nat) : Prop :=
  step = 0 → match frame with
    | .array xs => xs = []
    | .object _ ps => ps = []

/-- What has been read is plain, a key that waits for its value included. -/
def Plain : Frame F → Nat → Prop
  | .array xs, _ => AllElements JNode.Plain xs
  | .object key ps, step => (∀ p ∈ ps, PlainStr p.1) ∧ AllMembers JNode.Plain ps ∧
      (step = 2 ∨ step = 3 → PlainStr key)

theorem Plain.node {frame : Frame F} (h : frame.Plain step) : frame.node.All JNode.Plain := by
  cases frame with
  | array xs => exact ⟨trivial, h⟩
  | object key ps => exact ⟨h.1, h.2.1⟩

theorem node_size {frame : Frame F} (h : step ∈ frame.closing) :
    frame.node.size ≤ 2 + frame.load step := by
  cases frame with
  | array xs =>
    have hne : step ≠ 1 := by
      rintro rfl
      simp [closing] at h
    rw [node, JNode.size, load, if_neg hne]
    omega
  | object key ps =>
    have hne : step ≠ 1 ∧ step ≠ 2 ∧ step ≠ 3 := by
      refine ⟨?_, ?_, ?_⟩ <;> rintro rfl <;> simp [closing] at h
    rw [node, JNode.size, load, if_neg hne.1, if_neg hne.2.1, if_neg hne.2.2]
    omega

theorem separator_load {frame : Frame F} (h : (c, step, next) ∈ frame.separators) :
    frame.load next ≤ frame.load step + 1 ∧ frame.Fresh next ∧
      (frame.Plain step → frame.Plain next) := by
  cases frame with
  | array xs =>
    cases List.mem_singleton.1 h
    refine ⟨?_, nofun, id⟩
    simp only [load, reduceIte, OfNat.ofNat_ne_one]
    omega
  | object key ps =>
    rcases List.mem_cons.1 h with h | h
    · cases h
      refine ⟨?_, nofun, fun hp => ⟨hp.1, hp.2.1, fun _ => hp.2.2 (.inl rfl)⟩⟩
      simp [load]
    · cases List.mem_singleton.1 h
      refine ⟨?_, nofun, fun hp => ⟨hp.1, hp.2.1, by simp⟩⟩
      simp [load]
      omega

/-- A value that is accepted takes its own text; one that is passed over takes some. -/
theorem accept_load {frame frame' : Frame F} {x : JNode F} (hfresh : frame.Fresh step)
    (h : frame.accept step x = some (next, frame')) :
    frame'.load next ≤ frame.load step + x.size ∧ frame'.Fresh next ∧
      (frame.Plain step → x.All JNode.Plain → frame'.Plain next) := by
  cases frame with
  | array xs =>
    rw [accept] at h
    split_ifs at h with hstep
    · cases h
      refine ⟨?_, by simp [Fresh], fun hp hx => AllElements.append hp hx⟩
      have hload : load (.array xs) step = sizes xs := by
        rcases hstep with rfl | rfl
        · rw [show xs = [] from hfresh rfl]
          rfl
        · rfl
      rw [hload, load, if_neg (by decide), sizes_append]
      omega
    · cases h
      exact ⟨Nat.le_add_right _ _, hfresh, fun hp _ => hp⟩
  | object key ps =>
    rw [accept.eq_def] at h
    dsimp only at h
    by_cases hstep : step = 0 ∨ step = 1
    · rw [if_pos hstep] at h
      cases x with
      | string k =>
        cases h
        refine ⟨?_, by simp [Fresh], fun hp hx => ⟨hp.1, hp.2.1, fun _ => hx⟩⟩
        have hload : load (.object key ps) step = memberSizes ps := by
          rcases hstep with rfl | rfl
          · rw [show ps = [] from hfresh rfl]
            rfl
          · rfl
        rw [hload, JNode.size]
        exact Nat.le_refl (memberSizes ps + k.length + 2)
      | _ => cases h
    · rw [if_neg hstep] at h
      split_ifs at h with hvalue
      · cases h
        subst hvalue
        refine ⟨?_, by simp [Fresh], fun hp hx => ?_⟩
        · have hset := memberSizes_set ps key x
          show memberSizes (JObject.set ps key x) - 1 ≤ memberSizes ps + key.length + 3 + x.size
          omega
        · exact ⟨forall_key_set hp.1 (hp.2.2 (.inr rfl)) x, hp.2.1.set hx key, by simp⟩
      · cases h
        exact ⟨Nat.le_add_right _ _, hfresh, fun hp _ => hp⟩

end Frame

theorem StrBody.length (h : StrBody b s) :
    s.length ≤ b.length ∧ (s.length = b.length → PlainStr s) := by
  induction h with
  | nil => exact ⟨Nat.le_refl 0, fun _ _ hc => absurd hc (List.not_mem_nil)⟩
  | plain h₁ h₂ _ ih =>
    refine ⟨Nat.succ_le_succ ih.1, fun heq => ?_⟩
    exact List.forall_mem_cons.2 ⟨⟨h₁, h₂⟩, ih.2 (Nat.succ.inj heq)⟩
  | escape _ _ ih | unicode _ _ _ _ _ ih =>
    simp only [List.length_cons]
    exact ⟨by omega, fun heq => absurd heq (by omega)⟩

theorem IsWord.length (h : IsWord ls w) : w.length = ls.length := by
  rw [← h, List.length_map]

section

variable [Single F]

theorem numberNode_size {x : JNode F} (h : numberNode s = some x) (hs : 0 < s.length) :
    x.size ≤ s.length ∧ (x.size = s.length → x.All JNode.Plain) := by
  rw [numberNode] at h
  cases hi : int32TryParse s with
  | some i =>
    rw [hi] at h
    cases h
    exact ⟨intToString_length hi, fun _ => trivial⟩
  | none =>
    rw [hi] at h
    obtain ⟨f, _, rfl⟩ := Option.map_eq_some_iff.1 h
    rw [JNode.size]
    exact ⟨Nat.zero_le _, fun heq => absurd heq (by omega)⟩

mutual

/-- The text of a tree is not longer than what it was read from, and as long only if nothing in
the tree would have to be escaped. -/
theorem Reads.size {x : JNode F} : Reads s x r → x.size + r.length ≤ s.length ∧
    (x.size + r.length = s.length → x.All JNode.Plain)
  | .null hw => by
    rw [List.length_append, hw.length]
    exact ⟨Nat.le_refl _, fun _ => trivial⟩
  | .false hw => by
    rw [List.length_append, hw.length]
    exact ⟨Nat.le_refl _, fun _ => trivial⟩
  | .true hw => by
    rw [List.length_append, hw.length]
    exact ⟨Nat.le_refl _, fun _ => trivial⟩
  | .number hc hparse => by
    obtain ⟨w, r, rfl, hn, _, hnode⟩ := parseNumber_some hc hparse
    have hsize := numberNode_size hnode (Nat.succ_pos _)
    rw [hn, Int.toNat_natCast, ← List.cons_append, List.drop_left, List.length_append]
    exact ⟨by omega, fun heq => hsize.2 (by omega)⟩
  | .string hb => by
    obtain ⟨b, hb, rfl⟩ := hb
    have hlen := hb.length
    rw [JNode.size, List.length_append, quoted, List.length_cons, List.length_append,
      List.length_singleton]
    exact ⟨by omega, fun heq => hlen.2 (by omega)⟩
  | .array h => by
    have hsize := h.size (fun _ => rfl)
    rw [List.length_cons]
    have hload : Frame.load (.array (F := F) []) 0 = 0 := rfl
    rw [hload] at hsize
    exact ⟨by omega, fun heq => hsize.2 (by omega) trivial⟩
  | .object h => by
    have hsize := h.size (fun _ => rfl)
    rw [List.length_cons]
    have hload : Frame.load (.object (F := F) [] []) 0 = 0 := rfl
    rw [hload] at hsize
    exact ⟨by omega, fun heq => hsize.2 (by omega) ⟨nofun, trivial, by simp⟩⟩

theorem ReadsIn.size {frame frame' : Frame F} :
    ReadsIn frame step t frame' r → frame.Fresh step →
    frame'.node.size + r.length ≤ 1 + frame.load step + t.length ∧
    (frame'.node.size + r.length = 1 + frame.load step + t.length → frame.Plain step →
      frame'.node.All JNode.Plain)
  | .close hstep, _ => by
    have hsize := Frame.node_size hstep
    rw [List.length_cons]
    exact ⟨by omega, fun _ hp => hp.node⟩
  | .separator hmem h, _ => by
    obtain ⟨hload, hfresh, hplain⟩ := Frame.separator_load hmem
    have hsize := h.size hfresh
    rw [List.length_cons]
    exact ⟨by omega, fun heq hp => hsize.2 (by omega) (hplain hp)⟩
  | .space _ h, hfresh => by
    have hsize := h.size hfresh
    rw [List.length_cons]
    exact ⟨by omega, fun heq => absurd heq (by omega)⟩
  | .value hx haccept h, hfresh => by
    obtain ⟨hload, hfresh, hplain⟩ := Frame.accept_load hfresh haccept
    have hvalue := hx.size
    have hsize := h.size hfresh
    exact ⟨by omega, fun heq hp => hsize.2 (by omega) (hplain hp (hvalue.2 (by omega)))⟩

end

/-! ## The printed text -/

mutual

theorem JNode.toString_length : (x : JNode F) → x.All JNode.Basic → x.toString.length = x.size
  | .null, _ => rfl
  | .false, _ => rfl
  | .true, _ => rfl
  | .int _, _ => rfl
  | .float _, hbasic => hbasic.elim
  | .string s, _ => by
    rw [JNode.toString, quoted, JNode.size, List.length_cons, List.length_append,
      List.length_singleton]
  | .array xs, hbasic => by
    rw [JNode.toString, JNode.size, List.length_cons, List.length_append, List.length_singleton,
      elements_length xs hbasic.2]
    omega
  | .object ps, hbasic => by
    rw [JNode.toString, JNode.size, List.length_cons, List.length_append, List.length_singleton,
      members_length ps hbasic.2]
    omega

theorem elements_length : (xs : List (JNode F)) → AllElements JNode.Basic xs →
    (JArray.elements xs).length = sizes xs - 1
  | [], _ => rfl
  | [x], hbasic => by
    rw [JArray.elements, List.length_append, x.toString_length hbasic.1]
    rfl
  | x :: y :: ys, hbasic => by
    rw [JArray.elements, List.length_append, x.toString_length hbasic.1, List.length_append,
      elements_length (y :: ys) hbasic.2]
    show x.size + (1 + (y.size + 1 + sizes ys - 1)) = x.size + 1 + (y.size + 1 + sizes ys) - 1
    omega

theorem members_length : (ps : List (Str × JNode F)) → AllMembers JNode.Basic ps →
    (JObject.members ps).length = memberSizes ps - 1
  | [], _ => rfl
  | [p], hbasic => by
    rw [JObject.members, List.length_append, quoted, List.length_cons, List.length_append,
      List.length_singleton, List.length_cons, List.length_append,
      p.2.toString_length hbasic.1, memberSizes]
    show p.1.length + 1 + 1 + (p.2.size + 0 + 1) = p.1.length + 3 + p.2.size + 1 + 0 - 1
    omega
  | p :: q :: qs, hbasic => by
    rw [JObject.members, List.length_append, quoted, List.length_cons, List.length_append,
      List.length_singleton, List.length_cons, List.length_append, List.length_append,
      p.2.toString_length hbasic.1, members_length (q :: qs) hbasic.2, memberSizes]
    show p.1.length + 1 + 1 + (p.2.size + (1 + (memberSizes (q :: qs) - 1)) + 1) =
      p.1.length + 3 + p.2.size + 1 + memberSizes (q :: qs) - 1
    rw [memberSizes]
    omega

end

/-- `Parse` undoes `ToString` on the trees whose strings and keys need no escape, and on no
others. -/
theorem parse_toString_iff (x : JNode F) (h : x.All JNode.Basic) (d : DotJson F) :
    d.Parse x.toString = .ok (true, ⟨some x⟩) ↔ x.All JNode.Plain := by
  constructor
  · intro hparse
    have hnil : x.toString ≠ [] := by
      intro hnil
      rw [hnil] at hparse
      cases hparse
    rw [d.Parse_eq hnil] at hparse
    have hfound := parseNode_found (F := F) (s := x.toString) fun frame t _ =>
      containerLoop_found t frame 0
    cases hnode : parseNode (F := F) x.toString with
    | error e =>
      rw [hnode] at hparse
      cases hparse
    | ok r =>
      obtain ⟨n, node⟩ := r
      rw [hnode] at hparse hfound
      have hroot : node = some x := by
        simp only [Except.ok.injEq, Prod.mk.injEq, DotJson.mk.injEq] at hparse
        exact hparse.2
      subst hroot
      obtain ⟨c, w, r, _, _, hreads⟩ := hfound
      have hsize := hreads.size
      rw [x.toString_length h] at hsize
      exact hsize.2 (by omega)
  · intro hplain
    have hvalue := x.isValue h hplain
    have hnil : x.toString ≠ [] := by
      intro hnil
      rw [hnil] at hvalue
      exact not_isText_nil x ⟨[], [], [], .nil, hvalue, .nil, rfl⟩
    obtain ⟨n, hparse⟩ := hvalue.parse .nil
    rw [List.append_nil] at hparse
    rw [d.Parse_eq hnil, hparse]
    have hn : (n : Int) + 1 ≠ -1 := by omega
    simpa using hn

end

/-- `{"a":[-7,null],"":"b c"}`. -/
def sample : JNode Empty :=
  .object [([ch 'a'], .array [.int (-7), .null]), ([], .string [ch 'b', ch ' ', ch 'c'])]

theorem parse_toString_sample :
    DotJson.Parse ⟨none⟩ sample.toString = .ok (true, ⟨some sample⟩) := by
  have hbasic : sample.All JNode.Basic :=
    ⟨by simp [JNode.Basic], ⟨trivial, trivial, trivial, trivial⟩, trivial, trivial⟩
  have hplain : sample.All JNode.Plain := by
    refine ⟨?_, ⟨trivial, trivial, trivial, trivial⟩, ?_, trivial⟩
    · simp only [JNode.Plain, List.forall_mem_cons, PlainStr]
      exact ⟨⟨by decide, nofun⟩, nofun, nofun⟩
    · show PlainStr [ch 'b', ch ' ', ch 'c']
      simp only [PlainStr, List.forall_mem_cons]
      exact ⟨by decide, by decide, by decide, nofun⟩
  exact (parse_toString_iff sample hbasic ⟨none⟩).2 hplain

/-- A string of one quote is printed as three quotes, which are read as the empty string. -/
theorem parse_toString_quote : (JNode.string (F := Empty) [ch '"']).All JNode.Basic ∧
    DotJson.Parse (F := Empty) ⟨none⟩ (JNode.string (F := Empty) [ch '"']).toString ≠
      .ok (true, ⟨some (.string [ch '"'])⟩) := by
  refine ⟨trivial, ?_⟩
  have hparse : parseNode (F := Empty) (JNode.string (F := Empty) [ch '"']).toString =
      .ok (2, some (.string [])) := by
    rw [JNode.toString, quoted, parseNode_string, parseString, if_neg (not_not.2 rfl),
      List.singleton_append, stringLoop_quote]
    rfl
  have hnil : (JNode.string (F := Empty) [ch '"']).toString ≠ [] := List.cons_ne_nil _ _
  rw [DotJson.Parse_eq (F := Empty) ⟨none⟩ hnil, hparse]
  intro h
  cases h

end Misc.LibDotJson
