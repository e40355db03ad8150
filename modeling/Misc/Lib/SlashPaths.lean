import Mathlib.Data.List.Basic

namespace Misc.Lib
set_option autoImplicit true

namespace SlashPaths

def slash : UInt8 := 47
def dot : UInt8 := 46

/-- The elements of a path that have been read, and the next one. -/
def walk (rooted : Bool) (out : List (List UInt8)) (e : List UInt8) : List (List UInt8) :=
  if e = [] ∨ e = [dot] then out
  else if e = [dot, dot] then
    if out = [] ∨ out.getLast? = some [dot, dot] then (if rooted then out else out ++ [e])
    else out.dropLast
  else out ++ [e]

def rooted (path : List UInt8) : Bool := path.head? = some slash

def elements (root : Bool) (path : List UInt8) : List (List UInt8) :=
  (path.splitOn slash).foldl (walk root) []

def render (root : Bool) (out : List (List UInt8)) : List UInt8 :=
  if root then slash :: [slash].intercalate out
  else if out = [] then [dot] else [slash].intercalate out

def clean (path : List UInt8) : List UInt8 := render (rooted path) (elements (rooted path) path)

/-- The text in front of which `path.Join` starts the next element. -/
def put (buf e : List UInt8) : List UInt8 := if buf = [] then e else buf ++ slash :: e

def join (elems : List (List UInt8)) : List UInt8 :=
  let buf := elems.foldl put []
  if buf = [] then [] else clean buf

def Ordinary (e : List UInt8) : Prop := e ≠ [] ∧ e ≠ [dot] ∧ e ≠ [dot, dot]

/-- The elements of some texts without the empty ones. -/
def parts (texts : List (List UInt8)) : List (List UInt8) :=
  (texts.flatMap (·.splitOn slash)).filter (· ≠ [])

structure Kept (e : List UInt8) : Prop where
  ne_nil : e ≠ []
  ne_dot : e ≠ [dot]
  no_slash : slash ∉ e

section
variable {root : Bool} {out out' : List (List UInt8)} {e s t : List UInt8}
  {texts texts' : List (List UInt8)}

theorem no_slash_of_mem (h : e ∈ s.splitOn slash) : slash ∉ e := by
  induction s generalizing e with
  | nil =>
    rw [List.splitOn_nil, List.mem_singleton] at h
    rw [h]
    exact List.not_mem_nil
  | cons c s ih =>
    rw [List.splitOn_cons_eq_if_modifyHead] at h
    obtain ⟨x, l, hl⟩ := List.exists_cons_of_ne_nil (List.splitOn_ne_nil slash s)
    rw [hl] at h ih
    split_ifs at h with hc
    · rcases List.mem_cons.1 h with rfl | h
      · exact List.not_mem_nil
      · exact ih h
    · rw [List.modifyHead_cons] at h
      rcases List.mem_cons.1 h with rfl | h
      · rw [beq_iff_eq] at hc
        rw [List.mem_cons, not_or]
        exact ⟨Ne.symm hc, ih List.mem_cons_self⟩
      · exact ih (List.mem_cons_of_mem _ h)

theorem splitOn_append (s t : List UInt8) : ∃ pre x h rest, t.splitOn slash = h :: rest ∧
    (s ++ t).splitOn slash = pre ++ (x ++ h) :: rest := by
  obtain ⟨h, rest, ht⟩ := List.exists_cons_of_ne_nil (List.splitOn_ne_nil slash t)
  induction s with
  | nil => exact ⟨[], [], h, rest, ht, ht⟩
  | cons c s ih =>
    obtain ⟨pre, x, h', rest', ht', hs⟩ := ih
    rw [List.cons_append, List.splitOn_cons_eq_if_modifyHead, hs]
    split_ifs with hc
    · exact ⟨[] :: pre, x, h', rest', ht', rfl⟩
    · cases pre with
      | nil => exact ⟨[], c :: x, h', rest', ht', rfl⟩
      | cons y pre => exact ⟨(c :: y) :: pre, x, h', rest', ht', rfl⟩

theorem intercalate_append {l l' : List (List UInt8)} (h : l ≠ []) (h' : l' ≠ []) :
    [slash].intercalate (l ++ l') = [slash].intercalate l ++ slash ::
    [slash].intercalate l' := by
  induction l with
  | nil => exact absurd rfl h
  | cons e l ih =>
    by_cases hl : l = []
    · rw [hl, List.singleton_append, List.intercalate_cons_of_ne_nil h',
        List.intercalate_singleton, List.append_assoc, List.singleton_append]
    · rw [List.cons_append,
        List.intercalate_cons_of_ne_nil (List.append_ne_nil_of_left_ne_nil hl l'),
        List.intercalate_cons_of_ne_nil hl, ih hl]
      simp only [List.append_assoc]

theorem elements_append (root : Bool) (s t : List UInt8) :
    elements root (s ++ slash :: t) = (t.splitOn slash).foldl (walk root) (elements root s) := by
  rw [elements, List.splitOn_append_cons_self, List.foldl_append, elements]

theorem walk_kept (hout : ∀ e ∈ out, Kept e) (he : slash ∉ e) :
    ∀ e' ∈ walk root out e, Kept e' := by
  rw [walk]
  split_ifs with hskip hup hend hroot
  · exact hout
  · exact hout
  · intro e' he'
    rcases List.mem_append.1 he' with he' | he'
    · exact hout e' he'
    · rw [List.mem_singleton.1 he', hup]
      exact ⟨nofun, nofun, hup ▸ he⟩
  · intro e' he'
    exact hout e' ((List.dropLast_sublist out).subset he')
  · intro e' he'
    rw [not_or] at hskip
    rcases List.mem_append.1 he' with he' | he'
    · exact hout e' he'
    · rw [List.mem_singleton.1 he']
      exact ⟨hskip.1, hskip.2, he⟩

theorem foldl_walk_kept {l : List (List UInt8)} (hout : ∀ e ∈ out, Kept e)
    (hl : ∀ e ∈ l, slash ∉ e) : ∀ e ∈ l.foldl (walk root) out, Kept e := by
  induction l generalizing out with
  | nil => exact hout
  | cons e l ih =>
    exact ih (walk_kept hout (hl e List.mem_cons_self)) fun e he =>
      hl e (List.mem_cons_of_mem _ he)

theorem elements_kept (root : Bool) (s : List UInt8) : ∀ e ∈ elements root s, Kept e :=
  foldl_walk_kept nofun fun _ => no_slash_of_mem

theorem foldl_walk_ordinary {l : List (List UInt8)} (hl : ∀ e ∈ l, e = [] ∨ Ordinary e) :
    l.foldl (walk root) out = out ++ l.filter (· ≠ []) := by
  induction l generalizing out with
  | nil => rw [List.foldl_nil, List.filter_nil, List.append_nil]
  | cons e l ih =>
    rw [List.foldl_cons, ih fun e he => hl e (List.mem_cons_of_mem _ he)]
    rcases hl e List.mem_cons_self with rfl | ⟨hne, hdot, hup⟩
    · rw [walk, if_pos (Or.inl rfl), List.filter_cons_of_neg (by simp)]
    · rw [walk, if_neg (by simp [hne, hdot]), if_neg hup,
        List.filter_cons_of_pos (by simpa using hne), List.append_assoc, List.singleton_append]

theorem splitOn_kept (hout : ∀ e ∈ out, Kept e) (hne : out ≠ []) :
    ([slash].intercalate out).splitOn slash = out :=
  List.splitOn_intercalate slash (fun e he => (hout e he).no_slash) hne

theorem kept_ne_nil (hout : ∀ e ∈ out, Kept e) (hne : out ≠ []) :
    [slash].intercalate out ≠ [] := by
  intro hnil
  have hsplit := splitOn_kept hout hne
  rw [hnil, List.splitOn_nil] at hsplit
  exact (hout [] (hsplit ▸ List.mem_singleton_self _)).ne_nil rfl

theorem intercalate_inj (hout : ∀ e ∈ out, Kept e) (hout' : ∀ e ∈ out', Kept e)
    (h : [slash].intercalate out = [slash].intercalate out') : out = out' := by
  by_cases hnil : out = []
  · rw [hnil] at h ⊢
    by_contra hne
    exact kept_ne_nil hout' (Ne.symm hne) h.symm
  · by_cases hnil' : out' = []
    · rw [hnil'] at h
      exact absurd h (kept_ne_nil hout hnil)
    · rw [← splitOn_kept hout hnil, h, splitOn_kept hout' hnil']

theorem render_nil (hout : ∀ e ∈ out, Kept e) (h : render false out = [dot]) : out = [] := by
  by_contra hne
  rw [render, if_neg Bool.false_ne_true, if_neg hne] at h
  have hsplit := splitOn_kept hout hne
  rw [h] at hsplit
  exact (hout [dot] (hsplit ▸ List.mem_singleton_self _)).ne_dot rfl

theorem render_inj (hout : ∀ e ∈ out, Kept e) (hout' : ∀ e ∈ out', Kept e)
    (h : render root out = render root out') : out = out' := by
  cases root with
  | true => exact intercalate_inj hout hout' (List.cons.inj h).2
  | false =>
    by_cases hnil : out = []
    · rw [hnil] at h ⊢
      exact (render_nil hout' h.symm).symm
    · by_cases hnil' : out' = []
      · rw [hnil'] at h ⊢
        exact render_nil hout h
      · rw [render, render, if_neg Bool.false_ne_true, if_neg Bool.false_ne_true, if_neg hnil,
          if_neg hnil'] at h
        exact intercalate_inj hout hout' h

theorem foldl_put (hs : s ≠ []) (texts : List (List UInt8)) :
    texts.foldl put s ≠ [] ∧ rooted (texts.foldl put s) = rooted s ∧
      elements root (texts.foldl put s) =
        (texts.flatMap (·.splitOn slash)).foldl (walk root) (elements root s) := by
  induction texts generalizing s with
  | nil => exact ⟨hs, rfl, rfl⟩
  | cons t texts ih =>
    have hput : put s t = s ++ slash :: t := if_neg hs
    have hne : s ++ slash :: t ≠ [] := List.append_ne_nil_of_left_ne_nil hs _
    obtain ⟨hne', hrooted, helements⟩ := ih hne
    rw [List.foldl_cons, hput]
    refine ⟨hne', hrooted.trans ?_, ?_⟩
    · rw [rooted, rooted, List.head?_append_of_ne_nil _ hs]
    · rw [helements, elements_append, List.flatMap_cons, List.foldl_append]

theorem join_eq (hs : s ≠ []) (ht : ∀ e ∈ texts.flatMap (·.splitOn slash), e = [] ∨ Ordinary e) :
    join (s :: texts) = render (rooted s) (elements (rooted s) s ++ parts texts) := by
  obtain ⟨hne, hrooted, helements⟩ := @foldl_put (rooted s) s hs texts
  have hfold : (s :: texts).foldl put [] = texts.foldl put s := rfl
  rw [join, hfold, if_neg hne, clean, hrooted, helements, foldl_walk_ordinary ht, parts]

theorem parts_kept (ht : ∀ e ∈ texts.flatMap (·.splitOn slash), e = [] ∨ Ordinary e) :
    ∀ e ∈ parts texts, Kept e := by
  intro e he
  obtain ⟨he, hne⟩ := List.mem_filter.1 he
  obtain ⟨t, -, hmem⟩ := List.mem_flatMap.1 he
  have hord := (ht e he).resolve_left (of_decide_eq_true hne)
  exact ⟨hord.1, hord.2.1, no_slash_of_mem hmem⟩

/-- Two texts joined to the same one give the same path only with the same elements. -/
theorem join_eq_iff (hs : s ≠ [])
    (ht : ∀ e ∈ texts.flatMap (·.splitOn slash), e = [] ∨ Ordinary e)
    (ht' : ∀ e ∈ texts'.flatMap (·.splitOn slash), e = [] ∨ Ordinary e) :
    join (s :: texts) = join (s :: texts') ↔ parts texts = parts texts' := by
  rw [join_eq hs ht, join_eq hs ht']
  refine ⟨fun h => ?_, fun h => by rw [h]⟩
  refine List.append_cancel_left (render_inj ?_ ?_ h)
  · exact List.forall_mem_append.2 ⟨elements_kept _ s, parts_kept ht⟩
  · exact List.forall_mem_append.2 ⟨elements_kept _ s, parts_kept ht'⟩

end

end SlashPaths

end Misc.Lib
