import Misc.Xml.Loading

namespace Misc.Xml
open Misc.Lib
set_option autoImplicit true

inductive Item
  | element (name : List UInt8) (attr : List (List UInt8 × List UInt8)) (items : List Item)
  | charData (data : List UInt8)
  | comment (data : List UInt8)
  | directive (data : List UInt8)
  | procInst (target inst : List UInt8)

mutual

/-- What the decoder gives for an item. -/
def Item.tokens : Item → List Token
  | .element name attr items => .startElement name attr :: (tokensOf items ++ [.endElement name])
  | .charData data => [.charData data]
  | .comment data => [.comment data]
  | .directive data => [.directive data]
  | .procInst target inst => [.procInst target inst]

def tokensOf : List Item → List Token
  | [] => []
  | i :: is => i.tokens ++ tokensOf is

end

mutual

/-- The node that stands for an item, unless it is white space to be left out. -/
def Item.nodes (nowhite : Bool) : Item → List Xnode
  | .element name attr items => [.mk .element name (startValue attr) (nodesOf nowhite items)]
  | .charData data => if nowhite ∧ isWhite data then [] else [.mk .chardata [] (.string data) []]
  | .comment data => [.mk .comment [] (.string data) []]
  | .directive data => [.mk .directive [] (.string data) []]
  | .procInst target inst => [.mk .procinst target (.string inst) []]

def nodesOf (nowhite : Bool) : List Item → List Xnode
  | [] => []
  | i :: is => i.nodes nowhite ++ nodesOf nowhite is

end

/-- A document that ends within some elements, with the items of each of them. -/
inductive Spine
  | root (items : List Item)
  | inner (outer : Spine) (name : List UInt8) (attr : List (List UInt8 × List UInt8))
      (items : List Item)

namespace Spine

def tokens : Spine → List Token
  | root items => tokensOf items
  | inner outer name attr items => outer.tokens ++ .startElement name attr :: tokensOf items

def name : Spine → List UInt8
  | root _ => []
  | inner _ name _ _ => name

def append (is : List Item) : Spine → Spine
  | root items => root (items ++ is)
  | inner outer name attr items => inner outer name attr (items ++ is)

def push (i : Item) (s : Spine) : Spine := s.append [i]

/-- The innermost node, and those around it. -/
def cur (nowhite : Bool) : Spine → Xnode
  | root items => .mk .element [] .nil (nodesOf nowhite items)
  | inner _ name attr items => .mk .element name (startValue attr) (nodesOf nowhite items)

def parents (nowhite : Bool) : Spine → List Xnode
  | root _ => []
  | inner outer _ _ _ => outer.cur nowhite :: outer.parents nowhite

/-- The document as a tree, with the open elements as they are. -/
def node (nowhite : Bool) (s : Spine) : Xnode :=
  (s.parents nowhite).foldl (fun child parent => parent.push child) (s.cur nowhite)

def loader (nowhite : Bool) (s : Spine) : Loader := .at (s.cur nowhite) (s.parents nowhite)

end Spine

section
variable {nowhite : Bool} {i : Item} {is js : List Item} {s s' : Spine}
  {name data : List UInt8} {token : Token}
  {tokens : List Token}

theorem tokensOf_append (is js : List Item) :
    tokensOf (is ++ js) = tokensOf is ++ tokensOf js := by
  induction is with
  | nil => rfl
  | cons i is ih => rw [List.cons_append, tokensOf, tokensOf, ih, List.append_assoc]

theorem nodesOf_append (is js : List Item) :
    nodesOf nowhite (is ++ js) = nodesOf nowhite is ++ nodesOf nowhite js := by
  induction is with
  | nil => rfl
  | cons i is ih => rw [List.cons_append, nodesOf, nodesOf, ih, List.append_assoc]

theorem tokensOf_singleton (i : Item) : tokensOf [i] = i.tokens := List.append_nil _

theorem nodesOf_singleton (i : Item) : nodesOf nowhite [i] = i.nodes nowhite := List.append_nil _

theorem Spine.append_nil (s : Spine) : s.append [] = s := by
  cases s <;> rw [append, List.append_nil]

theorem Spine.push_append (s : Spine) (i : Item) (is : List Item) :
    (s.push i).append is = s.append (i :: is) := by
  cases s <;> rw [push, append, append, append, List.append_assoc, List.singleton_append]

theorem Spine.tokens_push (s : Spine) (i : Item) : (s.push i).tokens = s.tokens ++ i.tokens := by
  cases s with
  | root items => rw [push, append, tokens, tokensOf_append, tokensOf_singleton, tokens]
  | inner outer name attr items =>
    rw [push, append, tokens, tokensOf_append, tokensOf_singleton, tokens,
      List.append_assoc, List.cons_append]

theorem Spine.parents_push (s : Spine) (i : Item) :
    (s.push i).parents nowhite = s.parents nowhite := by
  cases s <;> rfl

theorem Spine.cur_push_nil (s : Spine) (h : i.nodes nowhite = []) :
    (s.push i).cur nowhite = s.cur nowhite := by
  cases s <;> rw [push, append, cur, cur, nodesOf_append, nodesOf_singleton, h, List.append_nil]

theorem Spine.cur_push (s : Spine) {n : Xnode} (h : i.nodes nowhite = [n]) :
    (s.push i).cur nowhite = (s.cur nowhite).push n := by
  cases s <;> rw [push, append, cur, cur, nodesOf_append, nodesOf_singleton, h, Xnode.push]

theorem Spine.loader_push_nil (s : Spine) (h : i.nodes nowhite = []) :
    (s.push i).loader nowhite = s.loader nowhite := by
  rw [loader, loader, parents_push, cur_push_nil s h]

theorem Spine.loader_push (s : Spine) {n : Xnode} (h : i.nodes nowhite = [n]) :
    (s.push i).loader nowhite = .at ((s.cur nowhite).push n) (s.parents nowhite) := by
  rw [loader, parents_push, cur_push s h]

theorem Spine.cur_name (s : Spine) : (s.cur nowhite).name = s.name := by
  cases s <;> rfl

/-! ## Turns of the loop -/

theorem step_item (s : Spine) (hi : i.tokens = [token]) :
    (s.loader nowhite).step nowhite token = .ok ((s.push i).loader nowhite) := by
  cases i with
  | element name attr items =>
    have hlen := congrArg List.length hi
    rw [Item.tokens, List.length_cons, List.length_append, List.length_singleton,
      List.length_singleton] at hlen
    omega
  | charData data =>
    cases hi
    by_cases hwhite : nowhite = true ∧ isWhite data = true
    · have hnodes : (Item.charData data).nodes nowhite = [] := if_pos hwhite
      rw [s.loader_push_nil hnodes]
      exact if_pos hwhite
    · have hnodes : (Item.charData data).nodes nowhite = [.mk .chardata [] (.string data) []] :=
        if_neg hwhite
      rw [s.loader_push hnodes]
      exact if_neg hwhite
  | comment data =>
    cases hi
    rw [s.loader_push rfl]
    rfl
  | directive data =>
    cases hi
    rw [s.loader_push rfl]
    rfl
  | procInst target inst =>
    cases hi
    rw [s.loader_push rfl]
    rfl

theorem step_start (s : Spine) (name : List UInt8) (attr : List (List UInt8 × List UInt8)) :
    (s.loader nowhite).step nowhite (.startElement name attr) =
      .ok ((s.inner name attr []).loader nowhite) := rfl

theorem step_end (s : Spine) (name : List UInt8) (attr : List (List UInt8 × List UInt8))
    (items : List Item) :
    ((s.inner name attr items).loader nowhite).step nowhite (.endElement name) =
      .ok ((s.push (.element name attr items)).loader nowhite) := by
  rw [s.loader_push (i := .element name attr items) rfl]
  exact if_neg (not_not_intro rfl)

theorem step_bad (s : Spine) (hname : s.name ≠ name) :
    (s.loader nowhite).step nowhite (.endElement name) = .error (.badElement s.name) := by
  have hcur : (s.cur nowhite).name = s.name := s.cur_name
  rw [← hcur] at hname ⊢
  exact if_pos hname

/-! ## Runs -/

theorem run_token (s : Spine) (hi : i.tokens = [token]) :
    i.tokens.foldlM (Loader.step nowhite) (s.loader nowhite) =
      .ok ((s.push i).loader nowhite) := by
  rw [hi, List.foldlM_cons, step_item s hi]
  rfl

mutual

theorem run_item (s : Spine) : (i : Item) →
    i.tokens.foldlM (Loader.step nowhite) (s.loader nowhite) = .ok ((s.push i).loader nowhite)
  | .element name attr items => by
    have hitems := run_items (s.inner name attr []) items
    rw [Item.tokens, List.foldlM_cons, step_start]
    change (tokensOf items ++ [Token.endElement name]).foldlM (Loader.step nowhite)
      ((s.inner name attr []).loader nowhite) = _
    rw [List.foldlM_append, hitems]
    change [Token.endElement name].foldlM (Loader.step nowhite)
      ((s.inner name attr items).loader nowhite) = _
    rw [List.foldlM_cons, step_end]
    rfl
  | .charData _ => run_token s rfl
  | .comment _ => run_token s rfl
  | .directive _ => run_token s rfl
  | .procInst _ _ => run_token s rfl

theorem run_items (s : Spine) : (is : List Item) →
    (tokensOf is).foldlM (Loader.step nowhite) (s.loader nowhite) =
      .ok ((s.append is).loader nowhite)
  | [] => by
    rw [Spine.append_nil]
    rfl
  | i :: is => by
    rw [tokensOf, List.foldlM_append, run_item s i, ← Spine.push_append]
    exact run_items (s.push i) is

end

theorem run_spine (s : Spine) :
    s.tokens.foldlM (Loader.step nowhite) (.at newRoot []) = .ok (s.loader nowhite) := by
  induction s with
  | root items =>
    exact run_items (.root []) items
  | inner outer name attr items ih =>
    rw [Spine.tokens, List.foldlM_append, ih]
    exact run_items (outer.inner name attr []) items

/-- A token either goes on with the document or closes an element that is not the innermost
one. -/
theorem step_cases (s : Spine) (hname : ∀ name, token = .endElement name → name ≠ []) :
    (∃ s' : Spine, s'.tokens = s.tokens ++ [token]) ∨
      ∃ name, token = .endElement name ∧ s.name ≠ name := by
  have hitem (i : Item) (hi : i.tokens = [token]) :
      ∃ s' : Spine, s'.tokens = s.tokens ++ [token] :=
    ⟨s.push i, by rw [s.tokens_push, hi]⟩
  cases token with
  | startElement name attr => exact .inl ⟨s.inner name attr [], rfl⟩
  | endElement name =>
    by_cases hs : s.name = name
    · cases s with
      | root items => exact absurd hs.symm (hname name rfl)
      | inner outer name' attr items =>
        obtain rfl : name' = name := hs
        refine .inl ⟨outer.push (.element name' attr items), ?_⟩
        rw [outer.tokens_push, Item.tokens, Spine.tokens, List.append_assoc, List.cons_append]
    · exact .inr ⟨name, rfl, hs⟩
  | charData data => exact .inl (hitem (.charData data) rfl)
  | comment data => exact .inl (hitem (.comment data) rfl)
  | directive data => exact .inl (hitem (.directive data) rfl)
  | procInst target inst => exact .inl (hitem (.procInst target inst) rfl)

theorem run_cases (tokens : List Token)
    (hnames : ∀ name, Token.endElement name ∈ tokens → name ≠ []) :
    (∃ s : Spine, s.tokens = tokens) ∨
      ∃ (s : Spine) (name : List UInt8) (rest : List Token),
        tokens = s.tokens ++ .endElement name :: rest ∧ s.name ≠ name := by
  induction tokens using List.reverseRecOn with
  | nil => exact .inl ⟨.root [], rfl⟩
  | append_singleton tokens token ih =>
    obtain ⟨s, rfl⟩ | ⟨s, name, rest, rfl, hne⟩ :=
      ih fun name hm => hnames name (List.mem_append_left _ hm)
    · obtain ⟨s', hs'⟩ | ⟨name, rfl, hne⟩ := step_cases s fun name htoken =>
        hnames name (htoken ▸ List.mem_append_right _ (.head _))
      · exact .inl ⟨s', hs'⟩
      · exact .inr ⟨s, name, [], rfl, hne⟩
    · exact .inr ⟨s, name, rest ++ [token], by rw [List.append_assoc, List.cons_append], hne⟩

theorem loadxml_spine (nowhite : Bool) (s : Spine) :
    loadxml nowhite s.tokens = .ok (s.node nowhite) := by
  rw [loadxml, run_spine]
  rfl

theorem loadxml_bad (nowhite : Bool) (s : Spine) (hname : s.name ≠ name) (rest : List Token) :
    loadxml nowhite (s.tokens ++ .endElement name :: rest) = .error (.badElement s.name) := by
  rw [loadxml, List.foldlM_append, run_spine]
  change Except.map Loader.root
    ((Token.endElement name :: rest).foldlM (Loader.step nowhite) (s.loader nowhite)) = _
  rw [List.foldlM_cons, step_bad s hname]
  rfl

/-- `loadxml` accepts what begins a document, also within an element, and gives it as a tree; it
fails at the first end of an element that is not the innermost one, and names the innermost
one. -/
theorem loadxml_iff (nowhite : Bool) (tokens : List Token)
    (hnames : ∀ name, Token.endElement name ∈ tokens → name ≠ []) :
    (∀ root, loadxml nowhite tokens = .ok root ↔
      ∃ s : Spine, s.tokens = tokens ∧ s.node nowhite = root) ∧
    ∀ e, loadxml nowhite tokens = .error e ↔
      ∃ (s : Spine) (name : List UInt8) (rest : List Token),
      tokens = s.tokens ++ .endElement name :: rest ∧ s.name ≠ name ∧
        e = .badElement s.name := by
  obtain ⟨s, rfl⟩ | ⟨s, name, rest, rfl, hne⟩ := run_cases tokens hnames
  · rw [loadxml_spine]
    refine ⟨fun root => ⟨fun h => ⟨s, rfl, Except.ok.inj h⟩, ?_⟩, fun e =>
      ⟨fun h => (by cases h), ?_⟩⟩
    · rintro ⟨s', hs', rfl⟩
      rw [← loadxml_spine, ← loadxml_spine, hs']
    · rintro ⟨s', name, rest, htokens, hne, rfl⟩
      rw [← loadxml_spine, htokens, loadxml_bad nowhite s' hne]
  · rw [loadxml_bad nowhite s hne]
    refine ⟨fun root => ⟨fun h => (by cases h), ?_⟩, fun e =>
      ⟨fun h => ⟨s, name, rest, rfl, hne, ?_⟩, ?_⟩⟩
    · rintro ⟨s', hs', rfl⟩
      rw [← loadxml_bad nowhite s hne rest, ← hs', loadxml_spine]
    · exact (Except.error.inj h).symm
    · rintro ⟨s', name', rest', htokens, hne', rfl⟩
      rw [← loadxml_bad nowhite s hne rest, htokens, loadxml_bad nowhite s' hne']

theorem loadxml_iff_open :
    loadxml true [.startElement [97] [], .charData [32], .endElement [98]] =
    .error (.badElement [97]) := by
  refine ((loadxml_iff true _ fun name hm => ?_).2 _).2
    ⟨.inner (.root []) [97] [] [.charData [32]], [98], [], rfl, by decide, rfl⟩
  obtain rfl : name = [98] := by simpa using hm
  exact List.cons_ne_nil _ _

/-! ## Elements and attributes -/

def Item.isElement (name : List UInt8) : Item → Bool
  | .element name' _ _ => name' = name
  | _ => false

theorem find_append (xtype : Xmltype) (ms ns : List Xnode) {value : Value} :
    (Xnode.mk .element name value (ms ++ ns)).find xtype data =
      (Xnode.mk .element name value ms).find xtype data ++
        (Xnode.mk .element name value ns).find xtype data := List.filter_append ..

theorem elements_nodes (value : Value) (i : Item) :
    (Xnode.mk .element name value (i.nodes nowhite)).elements data =
      if i.isElement data then i.nodes nowhite else [] := by
  cases i with
  | element name' attr items =>
    by_cases hname : name' = data <;>
      simp [Xnode.elements, Xnode.find, Xnode.children, Item.nodes, Item.isElement,
        Xnode.xtype, Xnode.name, hname]
  | charData _ =>
    refine Eq.trans ?_ (if_neg Bool.false_ne_true).symm
    rw [Item.nodes]
    split_ifs <;> rfl
  | comment _ => rfl
  | directive _ => rfl
  | procInst _ _ => rfl

/-- The elements of a name among the children are those of the document, in order. -/
theorem elements_nodesOf (value : Value) (is : List Item) :
    (Xnode.mk .element name value (nodesOf nowhite is)).elements data =
      nodesOf nowhite (is.filter (Item.isElement data)) := by
  induction is with
  | nil => rfl
  | cons i is ih =>
    rw [nodesOf, Xnode.elements, find_append]
    change Xnode.elements _ data ++ Xnode.elements _ data = _
    rw [elements_nodes, ih]
    by_cases hi : i.isElement data = true
    · rw [if_pos hi, List.filter_cons_of_pos hi, nodesOf]
    · rw [if_neg hi, List.filter_cons_of_neg hi, List.nil_append]

theorem attrMap_eq (attr : List (List UInt8 × List UInt8)) (name : List UInt8) :
    attrMap attr name = attr.reverse.lookup name := by
  induction attr using List.reverseRecOn with
  | nil => rfl
  | append_singleton attr a ih =>
    rw [attrMap, List.foldl_append, List.foldl_cons, List.foldl_nil, List.reverse_append]
    change Function.update (attrMap attr) a.1 (some a.2) name = (a :: attr.reverse).lookup name
    by_cases hname : name = a.1
    · rw [hname, Function.update_self, List.lookup_cons_self]
    · rw [Function.update_of_ne hname, ih, List.lookup_cons, beq_false_of_ne hname]

/-- Of the attributes of one name the last one counts, and one that is not there is empty. -/
theorem attr_startValue (attr : List (List UInt8 × List UInt8)) (children : List Xnode) :
    (Xnode.mk .element name (startValue attr) children).attr data =
      (attr.reverse.lookup data).getD [] := by
  rw [Xnode.attr, Xnode.value, startValue, ← attrMap_eq]
  split_ifs with hnil
  · rw [hnil]
    rfl
  · rfl

/-! ## Text -/

/-- What a token adds to the text. -/
def kept (nowhite : Bool) : Token → List UInt8
  | .charData data => if nowhite ∧ isWhite data then [] else data
  | _ => []

theorem texts_append (ms ns : List Xnode) :
    Xnode.texts (ms ++ ns) = (Xnode.texts ms).bind fun a => (Xnode.texts ns).map (a ++ ·) := by
  induction ms with
  | nil =>
    rw [List.nil_append, Xnode.texts, Option.bind_some]
    exact (Option.map_id' (x := Xnode.texts ns)).symm
  | cons m ms ih =>
    rw [List.cons_append, Xnode.texts, Xnode.texts, ih]
    cases m.text with
    | none => rfl
    | some a =>
      cases Xnode.texts ms with
      | none => rfl
      | some b =>
        cases Xnode.texts ns with
        | none => rfl
        | some c => exact congrArg some (List.append_assoc a b c).symm

theorem texts_singleton {n : Xnode} {b : List UInt8} (h : n.text = some b) :
    Xnode.texts [n] = some b := by
  rw [Xnode.texts, h, Xnode.texts, Option.bind_some, Option.map_some, List.append_nil]

mutual

theorem texts_nodes (nowhite : Bool) : (i : Item) →
    Xnode.texts (i.nodes nowhite) = some (i.tokens.flatMap (kept nowhite))
  | .element name attr items => by
    rw [Item.nodes, Item.tokens, List.flatMap_cons, List.flatMap_append, List.flatMap_singleton]
    apply texts_singleton
    rw [Xnode.text, texts_nodesOf nowhite items]
    exact congrArg some (List.append_nil _).symm
  | .charData data => by
    rw [Item.nodes, Item.tokens, List.flatMap_singleton, kept]
    split_ifs
    · rfl
    · exact texts_singleton rfl
  | .comment _ => rfl
  | .directive _ => rfl
  | .procInst _ _ => rfl

theorem texts_nodesOf (nowhite : Bool) : (is : List Item) →
    Xnode.texts (nodesOf nowhite is) = some ((tokensOf is).flatMap (kept nowhite))
  | [] => rfl
  | i :: is => by
    rw [nodesOf, texts_append, texts_nodes nowhite i, texts_nodesOf nowhite is,
      tokensOf, List.flatMap_append]
    rfl

end

theorem texts_push (nowhite : Bool) (is : List Item) {n : Xnode} {b : List UInt8}
    (h : n.text = some b) :
    Xnode.texts (nodesOf nowhite is ++ [n]) =
      some ((tokensOf is).flatMap (kept nowhite) ++ b) := by
  rw [texts_append, texts_nodesOf, texts_singleton h]
  rfl

theorem Spine.text_around (nowhite : Bool) (s : Spine) {n : Xnode} {b : List UInt8}
    (h : n.text = some b) :
    ((s.cur nowhite :: s.parents nowhite).foldl (fun child parent => parent.push child) n).text =
      some (s.tokens.flatMap (kept nowhite) ++ b) := by
  induction s generalizing n b with
  | root items => exact texts_push nowhite items h
  | inner outer name attr items ih =>
    have hcur : (((inner outer name attr items).cur nowhite).push n).text =
        some ((tokensOf items).flatMap (kept nowhite) ++ b) := texts_push nowhite items h
    rw [List.foldl_cons, parents, ih hcur, tokens, List.flatMap_append, List.append_assoc]
    rfl

theorem Spine.node_text (nowhite : Bool) (s : Spine) :
    (s.node nowhite).text = some (s.tokens.flatMap (kept nowhite)) := by
  cases s with
  | root items => exact texts_nodesOf nowhite items
  | inner outer name attr items =>
    rw [node, parents,
      outer.text_around nowhite (n := cur nowhite (inner outer name attr items))
      (texts_nodesOf nowhite items), tokens, List.flatMap_append]
    rfl

/-- The text of a document that has been loaded is its character data in order, without the
white space that was left out. -/
theorem loadxml_text {root : Xnode} (hnames : ∀ name, Token.endElement name ∈ tokens → name ≠ [])
    (h : loadxml nowhite tokens = .ok root) :
    root.text = some (tokens.flatMap (kept nowhite)) := by
  obtain ⟨s, rfl⟩ | ⟨s, name, rest, rfl, hne⟩ := run_cases tokens hnames
  · rw [loadxml_spine] at h
    rw [← Except.ok.inj h]
    exact s.node_text nowhite
  · rw [loadxml_bad nowhite s hne] at h
    cases h

/-- The document `<a>x <!-- - -->y</a>`. -/
theorem loadxml_text_comment :
    ∃ root, loadxml true [.startElement [97] [], .charData [120, 32], .comment [45],
    .charData [121], .endElement [97]] = .ok root ∧ root.text = some [120, 32, 121] := by
  have hnames :
      ∀ name, Token.endElement name ∈ [Token.startElement [97] [],
      .charData [120, 32], .comment [45], .charData [121], .endElement [97]] → name ≠ [] := by
    intro name hm
    obtain rfl : name = [97] := by simpa using hm
    exact List.cons_ne_nil _ _
  obtain ⟨root, hroot⟩ :
      ∃ root, loadxml true [.startElement [97] [], .charData [120, 32], .comment [45],
      .charData [121], .endElement [97]] = .ok root := ⟨_, rfl⟩
  exact ⟨root, hroot, (loadxml_text hnames hroot).trans rfl⟩

end

end Misc.Xml
