import Misc.Dotjson.Lexemes

namespace Misc.Dotjson
set_option autoImplicit true

/-! The build with `DOTJSON_FEATURE_COMMENT`, in which `IGNORE_CHARS` is `ignore_chars`. -/

/-- `while (*p)` from the slashes on. -/
def lineComment : Ptr → Ptr
  | [] => []
  | c :: p => if c = 0 then c :: p else if c = ch '\n' then p else lineComment p

/-- `while (*p)` behind the opening of a block comment. -/
def blockComment : Ptr → Ptr
  | [] => []
  | c :: p =>
    if c = 0 then c :: p
    else if c = ch '*' ∧ byteAt p 0 = ch '/' then p.drop 1
    else blockComment p

/-- The label `_redo_ignore`; the first argument bounds the jumps to it. -/
def redoIgnore : Nat → Ptr → Option Ptr
  | 0, _ => none
  | k + 1, p =>
    let p := ignoreSpace p
    if byteAt p 0 = ch '/' then
      if byteAt p 1 = ch '/' then redoIgnore k (lineComment p)
      else if byteAt p 1 = ch '*' then redoIgnore k (blockComment (p.drop 2))
      else some p
    else some p

/-- Each jump has skipped something. -/
def ignoreChars (p : Ptr) : Ptr := (redoIgnore (p.length + 1) p).getD p

/-- Nothing up to `q` is the NUL. -/
def Reaches (p q : Ptr) : Prop := ∃ u, 0 ∉ u ∧ p = u ++ q

theorem Reaches.refl (p : Ptr) : Reaches p p := ⟨[], List.not_mem_nil, rfl⟩

theorem Reaches.cons (hc : c ≠ 0) (h : Reaches p q) : Reaches (c :: p) q := by
  obtain ⟨u, hu, rfl⟩ := h
  exact ⟨c :: u, by simp [hu, hc.symm], rfl⟩

theorem Reaches.trans (h : Reaches p q) (h' : Reaches q r) : Reaches p r := by
  obtain ⟨u, hu, rfl⟩ := h
  obtain ⟨v, hv, rfl⟩ := h'
  exact ⟨u ++ v, by simp [hu, hv], (List.append_assoc ..).symm⟩

theorem Reaches.length_le (h : Reaches p q) : q.length ≤ p.length := by
  obtain ⟨u, -, rfl⟩ := h
  rw [List.length_append]
  exact Nat.le_add_left _ _

theorem isSpace_ne_zero (hc : isSpace c = true) : c ≠ 0 := by
  rintro rfl
  cases hc

theorem ignoreSpace_reaches (p : Ptr) : Reaches p (ignoreSpace p) := by
  obtain ⟨u, hu, hp⟩ := ignoreSpace_spec p
  exact ⟨u, fun h => isSpace_ne_zero (hu 0 h) rfl, hp⟩

theorem lineComment_reaches (p : Ptr) : Reaches p (lineComment p) := by
  induction p with
  | nil => exact .refl []
  | cons c p ih =>
    rw [lineComment]
    split
    · exact .refl _
    · next hc =>
      split
      · exact (Reaches.refl p).cons hc
      · exact ih.cons hc

theorem blockComment_reaches (p : Ptr) : Reaches p (blockComment p) := by
  induction p with
  | nil => exact .refl []
  | cons c p ih =>
    rw [blockComment]
    split
    · exact .refl _
    · next hc =>
      split
      · next hend =>
        obtain ⟨q, rfl⟩ := byteAt_eq hend.2 (by decide)
        exact ((Reaches.refl q).cons (by decide)).cons hc
      · exact ih.cons hc

theorem redoIgnore_space (hu : Space u) (k : Nat) (p : Ptr) :
    redoIgnore k (u ++ p) = redoIgnore k p := by
  cases k with
  | zero => rfl
  | succ k => rw [redoIgnore, redoIgnore, hu.skip]

theorem redoIgnore_line (k : Nat) (p : Ptr) :
    redoIgnore (k + 1) (ch '/' :: ch '/' :: p) = redoIgnore k (lineComment p) := by
  rw [redoIgnore, ignoreSpace_cons (by decide)]
  rfl

theorem redoIgnore_block (k : Nat) (p : Ptr) :
    redoIgnore (k + 1) (ch '/' :: ch '*' :: p) = redoIgnore k (blockComment p) := by
  rw [redoIgnore, ignoreSpace_cons (by decide)]
  rfl

theorem redoIgnore_cases (p : Ptr) : (∀ k, redoIgnore (k + 1) p = some (ignoreSpace p)) ∨
    ∃ r, Reaches p r ∧ r.length < p.length ∧ ∀ k, redoIgnore (k + 1) p = redoIgnore k r := by
  obtain ⟨u, hu, hp⟩ := ignoreSpace_spec p
  have hspace := ignoreSpace_reaches p
  have hle := hspace.length_le
  by_cases hslash : byteAt (ignoreSpace p) 0 = ch '/'
  · obtain ⟨q, hq⟩ := byteAt_eq hslash (by decide)
    rw [hq, List.length_cons] at hle
    have hreach : Reaches p (ch '/' :: q) := hq ▸ hspace
    by_cases hline : byteAt q 0 = ch '/'
    · obtain ⟨r, rfl⟩ := byteAt_eq hline (by decide)
      have hr := lineComment_reaches r
      refine .inr ⟨lineComment r, hreach.trans ((hr.cons (by decide)).cons (by decide)), ?_, ?_⟩
      · have hlt := hr.length_le
        rw [List.length_cons] at hle
        omega
      · intro k
        rw [hp, redoIgnore_space hu, hq, redoIgnore_line]
    · by_cases hblock : byteAt q 0 = ch '*'
      · obtain ⟨r, rfl⟩ := byteAt_eq hblock (by decide)
        have hr := blockComment_reaches r
        refine .inr ⟨blockComment r,
          hreach.trans ((hr.cons (by decide)).cons (by decide)), ?_, ?_⟩
        · have hlt := hr.length_le
          rw [List.length_cons] at hle
          omega
        · intro k
          rw [hp, redoIgnore_space hu, hq, redoIgnore_block]
      · refine .inl ?_
        intro k
        rw [redoIgnore, if_pos hslash, hq, byteAt_one, if_neg hline, if_neg hblock]
  · refine .inl ?_
    intro k
    rw [redoIgnore, if_neg hslash]

/-- `ignore_chars` comes to an end, not behind the NUL, and where it stops it stops again. -/
theorem redoIgnore_spec (p : Ptr) : ∃ q, Reaches p q ∧
    (∀ k, p.length < k → redoIgnore k p = some q) ∧ ∀ k, redoIgnore (k + 1) q = some q := by
  induction hn : p.length using Nat.strongRecOn generalizing p with
  | ind n ih =>
    subst hn
    rcases redoIgnore_cases p with hstop | ⟨r, hr, hlt, hjump⟩
    · obtain ⟨u, hu, hp⟩ := ignoreSpace_spec p
      refine ⟨ignoreSpace p, ignoreSpace_reaches p, ?_, ?_⟩
      · intro k hk
        obtain ⟨k, rfl⟩ := Nat.exists_eq_add_one.2 (Nat.zero_lt_of_lt hk)
        exact hstop k
      · intro k
        have hk := hstop k
        rwa [hp, redoIgnore_space hu, ← hp] at hk
    · obtain ⟨q, hq, hall, hstop⟩ := ih r.length hlt r rfl
      refine ⟨q, hr.trans hq, ?_, hstop⟩
      intro k hk
      obtain ⟨k, rfl⟩ := Nat.exists_eq_add_one.2 (Nat.zero_lt_of_lt hk)
      rw [hjump]
      exact hall k (by omega)

theorem redoIgnore_eq (hk : p.length < k) : redoIgnore k p = some (ignoreChars p) := by
  obtain ⟨q, -, hall, -⟩ := redoIgnore_spec p
  rw [ignoreChars, hall _ (Nat.lt_succ_self _), hall k hk]
  rfl

theorem ignoreChars_eq (h : redoIgnore k p = some q) (hk : p.length < k) :
    ignoreChars p = q := by
  rw [redoIgnore_eq hk] at h
  exact Option.some.inj h

theorem ignoreChars_idem (p : Ptr) : ignoreChars (ignoreChars p) = ignoreChars p := by
  obtain ⟨q, -, hall, hstop⟩ := redoIgnore_spec p
  rw [ignoreChars_eq (hall _ (Nat.lt_succ_self _)) (Nat.lt_succ_self _)]
  exact ignoreChars_eq (hstop _) (Nat.lt_succ_self _)

end Misc.Dotjson
