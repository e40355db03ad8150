import Misc.Lib.SlashPaths
import Misc.Lib.Substrings
import Misc.Stdmv.Constraint

namespace Misc.Stdmv
open Misc.Lib SlashPaths
set_option autoImplicit true

def internal : List UInt8 :=
  [ch 'i', ch 'n', ch 't', ch 'e', ch 'r', ch 'n', ch 'a', ch 'l']

def std : List UInt8 := [ch 's', ch 't', ch 'd']

def internalStd : List UInt8 := internal ++ slash :: std

/-- The part of `ctx` that the place of a package depends on. The name of a module is not
empty. -/
structure Roots where
  modName : List UInt8
  basePkg : List UInt8
  named : modName ≠ []

/-- The end of `mapInternalPkgPath`, with the place of the slash before `internal`. -/
def mapped (ctx : Roots) (pkgPath : List UInt8) (p : Nat) : List UInt8 :=
  if ctx.basePkg.isPrefixOf pkgPath then join [ctx.modName, pkgPath.drop ctx.basePkg.length]
  else join [ctx.modName, internalStd, pkgPath.take p, pkgPath.drop (p + 9)]

def mapInternalPkgPath (ctx : Roots) (pkgPath : List UInt8) : List UInt8 :=
  if pkgPath = internal ∨ (internal ++ [slash]).isPrefixOf pkgPath then
    join [ctx.modName, internalStd, pkgPath.drop 8]
  else
    match index (slash :: (internal ++ [slash])) pkgPath with
    | some p => mapped ctx pkgPath p
    | none =>
      if (slash :: internal).isSuffixOf pkgPath then mapped ctx pkgPath (pkgPath.length - 9)
      else pkgPath

/-- An import path: its elements are not empty and do not end with a dot. -/
structure ImportPath where
  text : List UInt8
  ok : ∀ e ∈ text.splitOn slash, e ≠ [] ∧ e.getLast? ≠ some dot
  deriving DecidableEq

namespace ImportPath

def elems (p : ImportPath) : List (List UInt8) := p.text.splitOn slash

def Internal (p : ImportPath) : Prop := internal ∈ p.elems

/-- The path begins with the bytes of `base`, but not with the element `internal`. -/
def Based (base : List UInt8) (p : ImportPath) : Prop :=
  p.elems.head? ≠ some internal ∧ base <+: p.text

instance (p : ImportPath) : Decidable p.Internal := inferInstanceAs (Decidable (_ ∈ _))

instance (base : List UInt8) (p : ImportPath) : Decidable (p.Based base) :=
  inferInstanceAs (Decidable (_ ∧ _))

/-- The path without its first element `internal`. -/
def stripped (p : ImportPath) : List (List UInt8) := p.elems.erase internal

/-- Behind `base`, and perhaps a slash, lies `internal/std` and the other path without
`internal`. -/
def Meets (base : List UInt8) (p q : ImportPath) : Prop :=
  ∃ sep ∈ [[], [slash]],
    p.text = base ++ sep ++ [slash].intercalate (internal :: std :: q.stripped)

/-- Two internal paths that are sent to the same place. -/
def Clash (base : List UInt8) (p q : ImportPath) : Prop :=
  if p.Based base then
    if q.Based base then p.text.drop base.length = slash :: q.text.drop base.length ∨
      q.text.drop base.length = slash :: p.text.drop base.length
    else Meets base p q
  else if q.Based base then Meets base q p
  else p.stripped = q.stripped

instance (base : List UInt8) (p q : ImportPath) : Decidable (p.Meets base q) :=
  inferInstanceAs (Decidable (∃ sep ∈ [[], [slash]], _))

instance (base : List UInt8) (p q : ImportPath) : Decidable (p.Clash base q) :=
  inferInstanceAs
    (Decidable (if p.Based base then (if q.Based base then _ ∨ _ else p.Meets base q)
    else if q.Based base then q.Meets base p else p.stripped = q.stripped))

end ImportPath

theorem internal_no_slash : slash ∉ internal := by decide

theorem internal_length : internal.length = 8 := rfl

section
variable {a b l : List (List UInt8)} {ctx : Roots} {p q : ImportPath}

theorem internal_prefix_iff (hl : ∀ e ∈ l, slash ∉ e) (hne : l ≠ []) :
    (internal ++ [slash]).isPrefixOf ([slash].intercalate l) ↔
      ∃ m, m ≠ [] ∧ l = internal :: m := by
  rw [List.isPrefixOf_iff_prefix]
  constructor
  · rintro ⟨u, hu⟩
    have hsplit := List.splitOn_intercalate slash hl hne
    rw [← hu, List.append_assoc, List.singleton_append,
      List.splitOn_append_cons_self_of_not_mem internal_no_slash] at hsplit
    exact ⟨_, List.splitOn_ne_nil slash u, hsplit.symm⟩
  · rintro ⟨m, hm, rfl⟩
    rw [List.intercalate_cons_of_ne_nil hm]
    exact List.prefix_append _ _

theorem index_internal (hl : ∀ e ∈ a ++ internal :: b, slash ∉ e)
    (hnot : internal ∉ a) (hne : a ≠ []) :
    index (slash :: (internal ++ [slash])) ([slash].intercalate (a ++ internal :: b)) =
      if b = [] then none else some ([slash].intercalate a).length := by
  induction a with
  | nil => exact absurd rfl hne
  | cons e a ih =>
    rw [List.mem_cons, not_or] at hnot
    have hrest : ∀ e ∈ a ++ internal :: b, slash ∉ e :=
      fun e he => hl e (List.mem_cons_of_mem _ he)
    have hcons : a ++ internal :: b ≠ [] :=
      List.append_ne_nil_of_right_ne_nil a (List.cons_ne_nil _ _)
    have hpre := internal_prefix_iff hrest hcons
    rw [List.cons_append, List.intercalate_cons_of_ne_nil hcons, List.append_assoc,
      List.singleton_append, index_append (hl e List.mem_cons_self)]
    by_cases ha : a = []
    · subst ha
      rw [List.nil_append] at hpre ⊢
      by_cases hb : b = []
      · rw [if_pos hb, if_neg, hb, List.intercalate_singleton,
          index_none_of_not_mem internal_no_slash, Option.map_none]
        rw [hpre]
        rintro ⟨m, hm, heq⟩
        exact hm ((List.cons.inj heq).2 ▸ hb)
      · rw [if_neg hb, if_pos (hpre.2 ⟨b, hb, rfl⟩), List.intercalate_singleton]
    · rw [if_neg, ih hrest hnot.2 ha]
      · split_ifs
        · rfl
        · rw [Option.map_some, List.intercalate_cons_of_ne_nil ha, List.length_append,
            List.length_append]
          congr 1
          simp only [List.length_singleton]
          omega
      · rw [hpre]
        rintro ⟨m, -, heq⟩
        obtain ⟨e', a', rfl⟩ := List.exists_cons_of_ne_nil ha
        rw [(List.cons.inj heq).1] at hnot
        exact hnot.2 List.mem_cons_self

theorem index_none (hl : ∀ e ∈ l, slash ∉ e) (hnot : internal ∉ l) (hne : l ≠ []) :
    index (slash :: (internal ++ [slash])) ([slash].intercalate l) = none := by
  by_contra hsome
  obtain ⟨i, hi⟩ := Option.ne_none_iff_exists'.1 hsome
  obtain ⟨t, u, htext, -⟩ := index_eq_some hi
  have hsplit := List.splitOn_intercalate slash hl hne
  rw [htext, List.append_assoc, List.cons_append,
    List.splitOn_append_cons_self, List.append_assoc,
    List.singleton_append, List.splitOn_append_cons_self_of_not_mem internal_no_slash] at hsplit
  rw [← hsplit] at hnot
  exact hnot (List.mem_append_right _ List.mem_cons_self)

theorem suffix_internal (hl : ∀ e ∈ l, slash ∉ e) (hnot : internal ∉ l) (hne : l ≠ []) :
    (slash :: internal).isSuffixOf ([slash].intercalate l) = false := by
  rw [← Bool.not_eq_true, List.isSuffixOf_iff_suffix]
  rintro ⟨t, ht⟩
  have hsplit := List.splitOn_intercalate slash hl hne
  rw [← ht, List.splitOn_append_cons_self, List.splitOn_eq_singleton internal_no_slash] at hsplit
  rw [← hsplit] at hnot
  exact hnot (List.mem_append_right _ List.mem_cons_self)

def behind (b : List (List UInt8)) : List UInt8 :=
  if b = [] then [] else slash :: [slash].intercalate b

theorem splitOn_behind (hb : ∀ e ∈ b, slash ∉ e) : (behind b).splitOn slash = [] :: b := by
  rw [behind]
  split_ifs with hnil
  · rw [hnil, List.splitOn_nil]
  · have hcons :=
      List.splitOn_append_cons_self_of_not_mem (List.not_mem_nil : slash ∉ ([] : List UInt8))
      ([slash].intercalate b)
    rw [List.nil_append] at hcons
    rw [hcons, List.splitOn_intercalate slash hb hnil]

theorem intercalate_behind (e : List UInt8) (b : List (List UInt8)) :
    [slash].intercalate (e :: b) = e ++ behind b := by
  rw [behind]
  split_ifs with hnil
  · rw [hnil, List.intercalate_singleton, List.append_nil]
  · rw [List.intercalate_cons_of_ne_nil hnil, List.append_assoc, List.singleton_append]

namespace ImportPath

theorem elems_ne_nil (p : ImportPath) : p.elems ≠ [] := List.splitOn_ne_nil slash p.text

theorem elems_no_slash (p : ImportPath) : ∀ e ∈ p.elems, slash ∉ e := fun _ => no_slash_of_mem

theorem intercalate_elems (p : ImportPath) : [slash].intercalate p.elems = p.text :=
  List.intercalate_splitOn slash

theorem elems_ordinary (p : ImportPath) (he : e ∈ p.elems) : Ordinary e := by
  obtain ⟨hne, hdot⟩ := p.ok e he
  refine ⟨hne, ?_, ?_⟩
  · rintro rfl
    exact hdot rfl
  · rintro rfl
    exact hdot rfl

theorem leading_iff (p : ImportPath) :
    (p.text = internal ∨ (internal ++ [slash]).isPrefixOf p.text) ↔
      p.elems.head? = some internal := by
  rw [← p.intercalate_elems, internal_prefix_iff p.elems_no_slash p.elems_ne_nil]
  constructor
  · rintro (htext | ⟨m, -, hm⟩)
    · rw [p.intercalate_elems] at htext
      rw [elems, htext, List.splitOn_eq_singleton internal_no_slash]
      rfl
    · rw [hm]
      rfl
  · intro hhead
    obtain ⟨b, hb⟩ := List.head?_eq_some_iff.1 hhead
    rw [hb]
    by_cases hnil : b = []
    · rw [hnil]
      exact Or.inl List.intercalate_singleton
    · exact Or.inr ⟨b, hnil, rfl⟩

end ImportPath

theorem map_leading (hp : p.elems = internal :: b) : mapInternalPkgPath ctx p.text =
    join [ctx.modName, internalStd, behind b] := by
  have hlead := p.leading_iff.2 (by rw [hp]; rfl)
  rw [mapInternalPkgPath, if_pos hlead, ← p.intercalate_elems, hp, intercalate_behind,
    List.drop_left' internal_length]

theorem map_other (hp : p.elems = a ++ internal :: b) (ha : a ≠ []) (hnot : internal ∉ a) :
    mapInternalPkgPath ctx p.text =
      if ctx.basePkg.isPrefixOf p.text then join [ctx.modName, p.text.drop ctx.basePkg.length]
      else join [ctx.modName, internalStd, [slash].intercalate a, behind b] := by
  have htext : p.text = [slash].intercalate a ++ slash :: (internal ++ behind b) := by
    rw [← p.intercalate_elems, hp, intercalate_append ha (List.cons_ne_nil _ _),
      intercalate_behind]
  have hindex := index_internal (hp ▸ p.elems_no_slash) hnot ha
  rw [← hp, p.intercalate_elems] at hindex
  have hnlead : ¬ (p.text = internal ∨ (internal ++ [slash]).isPrefixOf p.text) := by
    rw [p.leading_iff, hp, List.head?_append_of_ne_nil _ ha]
    intro hhead
    exact hnot (List.mem_of_head? hhead)
  have hmapped : mapped ctx p.text ([slash].intercalate a).length =
      if ctx.basePkg.isPrefixOf p.text then join [ctx.modName, p.text.drop ctx.basePkg.length]
      else join [ctx.modName, internalStd, [slash].intercalate a, behind b] := by
    have hdrop : p.text.drop (([slash].intercalate a).length + 9) = behind b := by
      rw [htext, ← List.drop_drop, List.drop_left, List.drop_succ_cons,
        List.drop_left' internal_length]
    have htake : p.text.take ([slash].intercalate a).length = [slash].intercalate a := by
      rw [htext, List.take_left]
    rw [mapped, hdrop, htake]
  rw [mapInternalPkgPath, if_neg hnlead, hindex]
  by_cases hb : b = []
  · have hsuffix : (slash :: internal).isSuffixOf p.text = true := by
      rw [List.isSuffixOf_iff_suffix, htext, hb]
      exact ⟨_, by rw [behind, if_pos rfl, List.append_nil]⟩
    have hlen : p.text.length - 9 = ([slash].intercalate a).length := by
      rw [htext, hb, behind, if_pos rfl, List.append_nil, List.length_append, List.length_cons,
        internal_length]
      omega
    rw [if_pos hb]
    dsimp only
    rw [if_pos hsuffix, hlen, hmapped]
  · rw [if_neg hb]
    exact hmapped

theorem map_not_internal (hp : ¬ p.Internal) : mapInternalPkgPath ctx p.text = p.text := by
  have hnlead : ¬ (p.text = internal ∨ (internal ++ [slash]).isPrefixOf p.text) := by
    rw [p.leading_iff]
    intro hhead
    exact hp (List.mem_of_head? hhead)
  have hindex := index_none p.elems_no_slash hp p.elems_ne_nil
  have hsuffix := suffix_internal p.elems_no_slash hp p.elems_ne_nil
  rw [p.intercalate_elems] at hindex hsuffix
  rw [mapInternalPkgPath, if_neg hnlead, hindex]
  dsimp only
  rw [hsuffix, if_neg Bool.false_ne_true]

theorem drop_parts {base : List UInt8} (hbase : base <+: p.text) : ∃ h rest,
    (p.text.drop base.length).splitOn slash = h :: rest ∧ (h = [] ∨ Ordinary h) ∧
      ∀ e ∈ rest, Ordinary e := by
  obtain ⟨r, hr⟩ := hbase
  obtain ⟨pre, x, h, rest, hsplit, helems⟩ := splitOn_append base r
  rw [hr] at helems
  rw [← hr, List.drop_left]
  refine ⟨h, rest, hsplit, ?_, fun e he => ?_⟩
  · by_cases hnil : h = []
    · exact Or.inl hnil
    · obtain ⟨-, hdot⟩ := p.ok (x ++ h) (helems ▸ List.mem_append_right _ List.mem_cons_self)
      rw [List.getLast?_append_of_ne_nil _ hnil] at hdot
      refine Or.inr ⟨hnil, ?_, ?_⟩
      · rintro rfl
        exact hdot rfl
      · rintro rfl
        exact hdot rfl
  · apply p.elems_ordinary
    rw [ImportPath.elems, helems]
    exact List.mem_append_right _ (List.mem_cons_of_mem _ he)

/-- The elements that the path of an internal package has behind those of the module. -/
def ImportPath.place (base : List UInt8) (p : ImportPath) : List (List UInt8) :=
  if p.Based base then parts [p.text.drop base.length] else internal :: std :: p.stripped

theorem internalStd_elems : internalStd.splitOn slash = [internal, std] := by
  rw [internalStd, List.splitOn_append_cons_self_of_not_mem internal_no_slash,
    List.splitOn_eq_singleton (by decide)]

theorem stripped_ordinary (p : ImportPath) : ∀ e ∈ p.stripped, Ordinary e := fun _ he =>
  p.elems_ordinary (List.mem_of_mem_erase he)

theorem internal_ordinary : Ordinary internal := ⟨nofun, nofun, nofun⟩

theorem std_ordinary : Ordinary std := ⟨nofun, nofun, nofun⟩

theorem parts_std {texts : List (List UInt8)} (hp : p.stripped = a ++ b)
    (ht : texts.flatMap (·.splitOn slash) = internal :: std :: (a ++ [] :: b)) :
    (∀ e ∈ texts.flatMap (·.splitOn slash), e = [] ∨ Ordinary e) ∧
      parts texts = internal :: std :: p.stripped := by
  have hab : ∀ e ∈ a ++ b, Ordinary e := hp ▸ stripped_ordinary p
  obtain ⟨ha, hb⟩ := List.forall_mem_append.1 hab
  have hall : ∀ e ∈ internal :: std :: (a ++ [] :: b), e = [] ∨ Ordinary e := by
    rw [List.forall_mem_cons, List.forall_mem_cons, List.forall_mem_append, List.forall_mem_cons]
    exact ⟨Or.inr internal_ordinary, Or.inr std_ordinary, fun e he =>
      Or.inr (ha e he), Or.inl rfl, fun e he => Or.inr (hb e he)⟩
  rw [parts, ht, hp]
  refine ⟨hall, ?_⟩
  have hkeep (l : List (List UInt8)) (hl : ∀ e ∈ l, Ordinary e) : l.filter (· ≠ []) = l :=
    List.filter_eq_self.2 fun e he => decide_eq_true (hl e he).1
  rw [List.filter_cons_of_pos rfl, List.filter_cons_of_pos rfl, List.filter_append, hkeep a ha,
    List.filter_cons_of_neg (by simp), hkeep b hb]

theorem map_place (hp : p.Internal) : ∃ texts,
    mapInternalPkgPath ctx p.text = join (ctx.modName :: texts) ∧
      (∀ e ∈ texts.flatMap (·.splitOn slash), e = [] ∨ Ordinary e) ∧
        parts texts = p.place ctx.basePkg := by
  obtain ⟨a, b, helems, hnot⟩ := List.eq_append_cons_of_mem hp
  have hslash := p.elems_no_slash
  rw [helems] at hslash
  obtain ⟨hsa, hsb⟩ := List.forall_mem_append.1 hslash
  have hbehind := splitOn_behind (List.forall_mem_cons.1 hsb).2
  have hstripped : p.stripped = a ++ b := by
    rw [ImportPath.stripped, helems, List.erase_append_right _ hnot, List.erase_cons_head]
  by_cases ha : a = []
  · subst ha
    have hnb : ¬ p.Based ctx.basePkg := fun hb => hb.1 (by rw [helems]; rfl)
    obtain ⟨hall, hparts⟩ := @parts_std [] b p [internalStd, behind b] hstripped (by
      simp only [List.flatMap_cons, List.flatMap_nil, internalStd_elems,
        hbehind, List.append_nil]
      rfl)
    exact ⟨_, map_leading helems, hall, by rw [hparts, ImportPath.place, if_neg hnb]⟩
  · have hhead : p.elems.head? ≠ some internal := by
      rw [helems, List.head?_append_of_ne_nil _ ha]
      intro hhead
      exact hnot (List.mem_of_head? hhead)
    by_cases hbase : ctx.basePkg <+: p.text
    · obtain ⟨h, rest, hsplit, hh, hrest⟩ := drop_parts hbase
      refine ⟨[p.text.drop ctx.basePkg.length], ?_, ?_, ?_⟩
      · rw [map_other helems ha hnot, if_pos (List.isPrefixOf_iff_prefix.2 hbase)]
      · rw [List.flatMap_singleton, hsplit, List.forall_mem_cons]
        exact ⟨hh, fun e he => Or.inr (hrest e he)⟩
      · rw [ImportPath.place, if_pos ⟨hhead, hbase⟩]
    · have hnb : ¬ p.Based ctx.basePkg := fun hb => hbase hb.2
      obtain ⟨hall, hparts⟩ :=
        @parts_std a b p [internalStd, [slash].intercalate a, behind b] hstripped (by
          simp only [List.flatMap_cons, List.flatMap_nil, internalStd_elems, hbehind,
            List.splitOn_intercalate slash hsa ha, List.append_nil]
          rfl)
      refine ⟨_, ?_, hall, by rw [hparts, ImportPath.place, if_neg hnb]⟩
      rw [map_other helems ha hnot, if_neg (by rwa [List.isPrefixOf_iff_prefix])]

/-- Two internal packages are sent to one place only with the same elements behind the module. -/
theorem map_eq_iff (hp : p.Internal) (hq : q.Internal) :
    mapInternalPkgPath ctx p.text = mapInternalPkgPath ctx q.text ↔
      p.place ctx.basePkg = q.place ctx.basePkg := by
  obtain ⟨texts, hmap, hall, hparts⟩ := @map_place ctx p hp
  obtain ⟨texts', hmap', hall', hparts'⟩ := @map_place ctx q hq
  rw [hmap, hmap', ← hparts, ← hparts', join_eq_iff ctx.named hall hall']

theorem parts_slash (r : List UInt8) : parts [slash :: r] = parts [r] := by
  have hsplit :=
    List.splitOn_append_cons_self_of_not_mem (List.not_mem_nil : slash ∉ ([] : List UInt8)) r
  rw [List.nil_append] at hsplit
  rw [parts, parts, List.flatMap_singleton, List.flatMap_singleton, hsplit,
    List.filter_cons_of_neg (by simp)]

theorem parts_intercalate (hl : ∀ e ∈ l, Ordinary e) (hs : ∀ e ∈ l, slash ∉ e) (hne : l ≠ []) :
    parts [[slash].intercalate l] = l := by
  rw [parts, List.flatMap_singleton, List.splitOn_intercalate slash hs hne]
  exact List.filter_eq_self.2 fun e he => decide_eq_true (hl e he).1

theorem drop_eq {base : List UInt8} (hbase : base <+: p.text) :
    ∃ sep ∈ [[], [slash]], p.text.drop base.length =
      sep ++ [slash].intercalate (parts [p.text.drop base.length]) := by
  obtain ⟨h, rest, hsplit, hh, hrest⟩ := drop_parts hbase
  have htext : p.text.drop base.length = [slash].intercalate (h :: rest) := by
    rw [← hsplit, List.intercalate_splitOn]
  have hkeep : rest.filter (· ≠ []) = rest :=
    List.filter_eq_self.2 fun e he => decide_eq_true (hrest e he).1
  rw [parts, List.flatMap_singleton, hsplit, htext]
  rcases hh with rfl | hh
  · rw [List.filter_cons_of_neg (by simp), hkeep, intercalate_behind, List.nil_append, behind]
    split_ifs with hnil
    · exact ⟨[], List.mem_cons_self, by rw [hnil]; rfl⟩
    · exact ⟨[slash], List.mem_cons_of_mem _ List.mem_cons_self, rfl⟩
  · rw [List.filter_cons_of_pos (by simpa using hh.1), hkeep]
    exact ⟨[], List.mem_cons_self, rfl⟩

theorem meets_iff {base : List UInt8} (hbase : base <+: p.text) :
    parts [p.text.drop base.length] = internal :: std :: q.stripped ↔ p.Meets base q := by
  have htext : p.text = base ++ p.text.drop base.length := by
    obtain ⟨r, hr⟩ := hbase
    rw [← hr, List.drop_left]
  constructor
  · intro hparts
    obtain ⟨sep, hsep, hdrop⟩ := drop_eq hbase
    refine ⟨sep, hsep, ?_⟩
    rw [htext, hdrop, hparts, List.append_assoc]
  · rintro ⟨sep, hsep, hmeet⟩
    rw [hmeet, List.append_assoc, List.drop_left]
    have hord : ∀ e ∈ internal :: std :: q.stripped, Ordinary e := by
      rw [List.forall_mem_cons, List.forall_mem_cons]
      exact ⟨internal_ordinary, std_ordinary, stripped_ordinary q⟩
    have hslash : ∀ e ∈ internal :: std :: q.stripped, slash ∉ e := by
      rw [List.forall_mem_cons, List.forall_mem_cons]
      exact ⟨internal_no_slash, by decide, fun e he =>
        q.elems_no_slash e (List.mem_of_mem_erase he)⟩
    have hlist := parts_intercalate hord hslash (List.cons_ne_nil _ _)
    rcases List.mem_cons.1 hsep with rfl | hsep
    · exact hlist
    · rw [List.mem_singleton.1 hsep, List.singleton_append, parts_slash, hlist]

theorem drop_eq_iff {base : List UInt8} (hne : p ≠ q) (hp : base <+: p.text)
    (hq : base <+: q.text) : parts [p.text.drop base.length] = parts [q.text.drop base.length] ↔
      p.text.drop base.length = slash :: q.text.drop base.length ∨
        q.text.drop base.length = slash :: p.text.drop base.length := by
  constructor
  · intro hparts
    have hdiff : p.text.drop base.length ≠ q.text.drop base.length := by
      obtain ⟨r, hr⟩ := hp
      obtain ⟨r', hr'⟩ := hq
      rw [← hr, ← hr', List.drop_left, List.drop_left]
      intro heq
      apply hne
      cases p
      cases q
      rw [heq, hr'] at hr
      dsimp only at hr
      cases hr
      rfl
    obtain ⟨sep, hsep, hdrop⟩ := drop_eq hp
    obtain ⟨sep', hsep', hdrop'⟩ := drop_eq hq
    rw [hparts] at hdrop
    simp only [List.mem_cons, List.not_mem_nil, or_false] at hsep hsep'
    rcases hsep with rfl | rfl <;> rcases hsep' with rfl | rfl
    · exact absurd (hdrop.trans hdrop'.symm) hdiff
    · exact Or.inr (hdrop'.trans (congrArg (List.cons slash) hdrop.symm))
    · exact Or.inl (hdrop.trans (congrArg (List.cons slash) hdrop'.symm))
    · exact absurd (hdrop.trans hdrop'.symm) hdiff
  · rintro (heq | heq)
    · rw [heq, parts_slash]
    · rw [heq, parts_slash]

/-- The places of two paths are the same only for the reasons given. -/
theorem place_eq_iff {base : List UInt8} (hne : p ≠ q) :
    p.place base = q.place base ↔ p.Clash base q := by
  rw [ImportPath.Clash, ImportPath.place, ImportPath.place]
  split_ifs with hp hq hq
  · exact drop_eq_iff hne hp.2 hq.2
  · exact meets_iff hp.2
  · rw [eq_comm]
    exact meets_iff hq.2
  · rw [List.cons.injEq, List.cons.injEq, eq_self, eq_self, true_and, true_and]

end

/-- A package that is not internal keeps its path, and two internal ones are kept apart if and
only if they do not clash. -/
theorem mapInternalPkgPath_separates_iff (ctx : Roots) (p q : ImportPath) :
    (¬ p.Internal → mapInternalPkgPath ctx p.text = p.text) ∧
      (p.Internal → q.Internal → p ≠ q →
        (mapInternalPkgPath ctx p.text ≠ mapInternalPkgPath ctx q.text ↔
          ¬ p.Clash ctx.basePkg q)) := by
  refine ⟨map_not_internal, fun hp hq hne => not_congr ?_⟩
  rw [map_eq_iff hp hq, place_eq_iff hne]

/-- A module `m` with the base package `c`. -/
def exampleRoots : Roots := ⟨[ch 'm'], [ch 'c'], nofun⟩

def underBase : ImportPath := ⟨ch 'c' :: slash :: (internal ++ [slash, ch 'b']), by decide⟩

def inMiddle : ImportPath := ⟨ch 'a' :: slash :: (internal ++ [slash, ch 'b']), by decide⟩

def atFront : ImportPath := ⟨internal ++ [slash, ch 'a', slash, ch 'b'], by decide⟩

theorem separates_under_base :
    mapInternalPkgPath exampleRoots underBase.text ≠
      mapInternalPkgPath exampleRoots inMiddle.text :=
  ((mapInternalPkgPath_separates_iff exampleRoots underBase inMiddle).2 (by decide) (by decide)
    (by decide)).2 (by decide)

theorem internal_overwritten :
    ¬ ∀ (ctx : Roots) (p q : ImportPath), p.Internal → q.Internal → p ≠ q →
    mapInternalPkgPath ctx p.text ≠ mapInternalPkgPath ctx q.text := by
  intro h
  exact h exampleRoots inMiddle atFront (by decide) (by decide) (by decide) (by decide)

end Misc.Stdmv
