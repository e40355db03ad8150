import Misc.LibDotJson.Lexemes
namespace Misc.LibDotJson
set_option autoImplicit true
variable {F : Type}

namespace Frame

theorem separate_other {frame : Frame F} (h : ∀ s ∈ frame.separators, s.1 ≠ c) (step : Nat)
    (t : Str) : frame.separate step (c :: t) = some (step, c :: t) := by
  have hnone : frame.separators.find? (fun s => s.1 = c) = none := by
    rw [List.find?_eq_none]
    intro s hs
    simpa using h s hs
  rw [separate, hnone]

theorem separate_at {frame : Frame F} (h : (c, needed, next) ∈ frame.separators) (step : Nat)
    (t : Str) : frame.separate step (c :: t) = if step = needed then
      some (next, t) else none := by
  have hfind : frame.separators.find? (fun s => s.1 = c) = some (c, needed, next) := by
    cases frame with
    | array _ =>
      cases List.mem_singleton.1 h
      rfl
    | object _ _ =>
      rcases List.mem_cons.1 h with h | h
      · cases h
        rfl
      · cases List.mem_singleton.1 h
        rfl
  rw [separate, hfind]

theorem starts_nothing (frame : Frame F) : StartsNothing frame.closer ∧
    ∀ s ∈ frame.separators, StartsNothing s.1 ∧ s.1 ≠ frame.closer := by
  have hall : ∀ c ∈ [ch ']', ch '}', ch ',', ch ':'],
      c ∉ starters ∧ isWhiteSpace c = false ∧ ¬ (isDigit c = true ∨ c = ch '-') :=
    forall_mem_of_all (by decide)
  cases frame with
  | array _ =>
    refine ⟨hall (ch ']') (by decide), fun s hs => ?_⟩
    rw [List.mem_singleton.1 hs]
    exact ⟨hall _ (by decide), (by decide : ch ',' ≠ ch ']')⟩
  | object _ _ =>
    refine ⟨hall (ch '}') (by decide), fun s hs => ?_⟩
    rcases List.mem_cons.1 hs with rfl | hs
    · exact ⟨hall _ (by decide), (by decide : ch ':' ≠ ch '}')⟩
    · rw [List.mem_singleton.1 hs]
      exact ⟨hall _ (by decide), (by decide : ch ',' ≠ ch '}')⟩

theorem next_ne {frame : Frame F} (h : (c, needed, next) ∈ frame.separators) :
    ∀ s ∈ frame.separators, next ≠ s.2.1 := by
  cases frame with
  | array _ =>
    cases List.mem_singleton.1 h
    intro s hs
    rw [List.mem_singleton.1 hs]
    decide
  | object _ _ =>
    have hall : ∀ r ∈ [(ch ':', 2, 3), (ch ',', 4, 1)], ∀ s ∈ [(ch ':', 2, 3), (ch ',', 4, 1)],
        r.2.2 ≠ s.2.1 := by
      decide
    exact hall _ h

end Frame

variable [Single F]

/-! ## `parseNode` -/

theorem parseNode_object (t : Str) : parseNode (F := F) (ch '{' :: t) =
    (containerLoop (.object [] []) 0 t).map (containerResult (ch '{' :: t)) := by
  rw [parseNode, if_pos rfl, parseObject, if_neg (not_not.2 rfl)]

theorem parseNode_array (t : Str) : parseNode (F := F) (ch '[' :: t) =
    (containerLoop (.array []) 0 t).map (containerResult (ch '[' :: t)) := by
  rw [parseNode, if_neg (by decide), if_pos rfl, parseArray, if_neg (not_not.2 rfl)]

theorem parseNode_string (t : Str) : parseNode (F := F) (ch '"' :: t) =
    parseString (ch '"' :: t) := by
  rw [parseNode, if_neg (by decide), if_neg (by decide), if_pos rfl]

theorem parseNode_null (h : toUpper c = ch 'N') (t : Str) :
    parseNode (F := F) (c :: t) = parseWord [ch 'U', ch 'L', ch 'L'] .null t := by
  rcases (toUpper_eq (by decide) (by decide)).1 h with rfl | rfl <;>
    rw [parseNode, if_neg (by decide), if_neg (by decide),
      if_neg (by decide), if_pos (by decide)]

theorem parseNode_false (h : toUpper c = ch 'F') (t : Str) :
    parseNode (F := F) (c :: t) = parseWord [ch 'A', ch 'L', ch 'S', ch 'E'] .false t := by
  rcases (toUpper_eq (by decide) (by decide)).1 h with rfl | rfl <;>
    rw [parseNode, if_neg (by decide), if_neg (by decide),
      if_neg (by decide), if_neg (by decide), if_pos (by decide)]

theorem parseNode_true (h : toUpper c = ch 'T') (t : Str) :
    parseNode (F := F) (c :: t) = parseWord [ch 'R', ch 'U', ch 'E'] .true t := by
  rcases (toUpper_eq (by decide) (by decide)).1 h with rfl | rfl <;>
    rw [parseNode, if_neg (by decide), if_neg (by decide),
      if_neg (by decide), if_neg (by decide), if_neg (by decide), if_pos (by decide)]

theorem parseNode_default (h : c ∉ starters) (t : Str) : parseNode (F := F) (c :: t) =
    if isWhiteSpace c then (spaces t).map fun n => ((n : Int) + 1, none)
    else if isDigit c ∨ c = ch '-' then parseNumber (c :: t)
    else .ok (0, none) := by
  simp only [starters, List.mem_cons, List.not_mem_nil, or_false, not_or] at h
  obtain ⟨h₁, h₂, h₃, h₄, h₅, h₆, h₇, h₈, h₉⟩ := h
  rw [parseNode, if_neg h₁, if_neg h₂, if_neg h₃, if_neg (not_or.2 ⟨h₄, h₅⟩),
    if_neg (not_or.2 ⟨h₆, h₇⟩), if_neg (not_or.2 ⟨h₈, h₉⟩)]

theorem parseNode_space (h : isWhiteSpace c = true) (t : Str) :
    parseNode (F := F) (c :: t) = (spaces t).map fun n => ((n : Int) + 1, none) := by
  have hc : c ∉ starters := by
    have hall : ∀ d ∈ starters, isWhiteSpace d = false :=
      forall_mem_of_all (by decide)
    intro hc
    exact Bool.false_ne_true ((hall c hc).symm.trans h)
  rw [parseNode_default hc, if_pos h]

theorem parseNode_number (h : StartsNumber c) (t : Str) :
    parseNode (F := F) (c :: t) = parseNumber (c :: t) := by
  have hc : c ∉ starters := by
    have hall : ∀ d ∈ starters, isDigit d = false ∧ d ≠ ch '-' :=
      forall_mem_of_all (by decide)
    intro hc
    rcases h with h | h
    · exact Bool.false_ne_true ((hall c hc).1.symm.trans h)
    · exact (hall c hc).2 h
  rw [parseNode_default hc, h.not_space, if_neg Bool.false_ne_true]
  exact if_pos h

theorem parseNode_nothing (h : StartsNothing c) (t : Str) :
    parseNode (F := F) (c :: t) = .ok (0, none) := by
  obtain ⟨hc, hspace, hnum⟩ := h
  rw [parseNode_default hc, hspace, if_neg Bool.false_ne_true]
  exact if_neg hnum

theorem Unread.parse (h : Unread s) : parseNode (F := F) s = .ok (0, none) := by
  cases h with
  | other hc => exact parseNode_nothing hc _
  | @word c ls t hw hls =>
    have hfalse := letters_misspelt hls
    simp only [words, List.mem_cons, Prod.mk.injEq, List.not_mem_nil, or_false] at hw
    rcases hw with ⟨hc, rfl⟩ | ⟨hc, rfl⟩ | ⟨hc, rfl⟩
    · rw [parseNode_null hc, parseWord, hfalse]
      rfl
    · rw [parseNode_false hc, parseWord, hfalse]
      rfl
    · rw [parseNode_true hc, parseWord, hfalse]
      rfl

/-! ## The loop -/

def turn (frame : Frame F) (step : Nat) (p : Str) : Except Thrown (Option (Str × Frame F)) :=
  match parseNode p with
  | .error e => .error e
  | .ok (length, jnode) =>
    match jnode.elim (some (step, frame)) (frame.accept step) with
    | none => .ok none
    | some (step, frame) =>
      if 0 < length then containerLoop frame step (p.drop length.toNat)
      else if length = 0 ∧ p.head? = some frame.closer ∧ step ∈ frame.closing then
        .ok (some (p, frame))
      else .ok none

variable {frame : Frame F} {step : Nat}

theorem containerLoop_cons (frame : Frame F) (step : Nat) (c : UInt16) (t : Str) :
    containerLoop frame step (c :: t) = match frame.separate step (c :: t) with
      | none => .ok none
      | some (step, p) => turn frame step p := by
  rw [containerLoop]
  split
  · next h => rw [h]
  · next h => rw [h]; rfl

theorem loop_other (h : ∀ s ∈ frame.separators, s.1 ≠ c) (step : Nat) (t : Str) :
    containerLoop frame step (c :: t) = turn frame step (c :: t) := by
  rw [containerLoop_cons, Frame.separate_other h]

theorem loop_separator (h : (c, needed, next) ∈ frame.separators) (step : Nat) (t : Str) :
    containerLoop frame step (c :: t) = if step = needed then turn frame next t
      else .ok none := by
  rw [containerLoop_cons, Frame.separate_at h]
  split_ifs <;> rfl

theorem turn_nothing (h : parseNode (F := F) (c :: t) = .ok (0, none)) :
    turn frame step (c :: t) =
      if c = frame.closer ∧ step ∈ frame.closing then .ok (some (c :: t, frame))
        else .ok none := by
  rw [turn, h]
  simp

theorem turn_space (h : parseNode (F := F) p = .ok (n, none)) (hn : 0 < n) :
    turn frame step p = containerLoop frame step (p.drop n.toNat) := by
  rw [turn, h]
  exact if_pos hn

theorem turn_broken (h : parseNode (F := F) p = .ok (-1, none)) :
    turn frame step p = .ok none := by
  rw [turn, h]
  rfl

theorem turn_value {x : JNode F} (h : parseNode p = .ok (n, some x)) (hn : 0 < n) :
    turn frame step p = match frame.accept step x with
      | none => .ok none
      | some (next, frame') => containerLoop frame' next (p.drop n.toNat) := by
  rw [turn, h]
  dsimp only [Option.elim]
  cases frame.accept step x with
  | none => rfl
  | some r => exact if_pos hn

theorem not_separator (h : parseNode (F := F) (c :: t) ≠ .ok (0, none)) (frame : Frame F) :
    ∀ s ∈ frame.separators, s.1 ≠ c := by
  rintro s hs rfl
  exact h (parseNode_nothing (frame.starts_nothing.2 s hs).1 t)

theorem turn_next (h : (c, needed, next) ∈ frame.separators) (ht : t ≠ []) :
    turn frame next t = containerLoop frame next t := by
  cases t with
  | nil => exact absurd rfl ht
  | cons d t =>
    by_cases hd : ∃ s ∈ frame.separators, s.1 = d
    · obtain ⟨s, hs, rfl⟩ := hd
      have hs' := frame.starts_nothing.2 s hs
      rw [turn_nothing (parseNode_nothing hs'.1 t), if_neg fun h => hs'.2 h.1,
        loop_separator hs, if_neg (Frame.next_ne h s hs)]
    · rw [loop_other fun s hs he => hd ⟨s, hs, he⟩]

theorem loop_space (hc : isWhiteSpace c = true) (ht : t ≠ []) (frame : Frame F) (step : Nat) :
    containerLoop frame step (c :: t) = containerLoop frame step t := by
  have hother (d : UInt16) (hd : isWhiteSpace d = true) : ∀ s ∈ frame.separators, s.1 ≠ d := by
    rintro s hs rfl
    exact Bool.false_ne_true ((frame.starts_nothing.2 s hs).1.2.1.symm.trans hd)
  have hparse := parseNode_space (F := F) hc t
  rw [loop_other (hother c hc)]
  cases t with
  | nil => exact absurd rfl ht
  | cons d t =>
    by_cases hd : isWhiteSpace d = true
    · have hparse' := parseNode_space (F := F) hd t
      rw [spaces, if_pos hd] at hparse
      rw [loop_other (hother d hd)]
      cases hn : spaces t with
      | error e =>
        rw [hn] at hparse hparse'
        rw [turn, turn, hparse, hparse']
        rfl
      | ok n =>
        rw [hn] at hparse hparse'
        rw [turn_space hparse (Int.natCast_succ_pos _),
          turn_space hparse' (Int.natCast_succ_pos _)]
        rfl
    · rw [spaces, if_neg hd] at hparse
      rw [turn_space hparse Int.zero_lt_one]
      rfl

end Misc.LibDotJson
