import Misc.Lib.Graph
import Mathlib.Data.Finset.Card
import Mathlib.Data.Set.Card

namespace Misc.Lib.Graph
set_option autoImplicit true

variable {V : Type} [DecidableEq V]

/-- Puts a vertex on the stack if it has not been seen. -/
def push (p : List V × List V) (v : V) : List V × List V :=
  if v ∈ p.2 then p else (v :: p.1, p.2 ++ [v])

/-- Marks what is reached from the stack: the vertices seen, when the stack is empty. -/
def mark (succ : V → List V) : Nat → List V → List V → Option (List V)
  | _, [], seen => some seen
  | 0, _ :: _, _ => none
  | n + 1, v :: stack, seen =>
    let p := (succ v).foldl push (stack, seen)
    mark succ n p.1 p.2

variable {succ : V → List V} {roots stack seen ws l : List V}
  {A : Finset V} {v w : V} {n m : Nat}

theorem mark_mono (h : mark succ n stack seen = some l) (hle : n ≤ m) :
    mark succ m stack seen = some l := by
  induction n generalizing m stack seen with
  | zero =>
    cases stack with
    | nil =>
      cases h
      cases m <;> rfl
    | cons => cases h
  | succ n ih =>
    obtain ⟨m, rfl⟩ := Nat.exists_eq_add_of_le' (Nat.le_trans (Nat.le_add_left 1 n) hle)
    cases stack with
    | nil => exact h
    | cons v stack =>
      rw [mark] at h ⊢
      exact ih h (Nat.le_of_succ_le_succ hle)

theorem foldl_push (ws stack seen : List V) : ∃ new, ws.foldl push (stack, seen) =
      (new.reverse ++ stack, seen ++ new) ∧ new.Nodup ∧ (∀ v ∈ new, v ∈ ws ∧ v ∉ seen) ∧
    ∀ w ∈ ws, w ∈ seen ++ new := by
  induction ws generalizing stack seen with
  | nil => exact ⟨[], by simp, List.nodup_nil, nofun, nofun⟩
  | cons v ws ih =>
    rw [List.foldl_cons, push]
    split_ifs with hv
    · obtain ⟨new, heq, hnd, hnew, hall⟩ := ih stack seen
      refine ⟨new, heq, hnd, fun u hu => ⟨.tail _ (hnew u hu).1, (hnew u hu).2⟩, ?_⟩
      exact List.forall_mem_cons.2 ⟨List.mem_append_left _ hv, hall⟩
    · obtain ⟨new, heq, hnd, hnew, hall⟩ := ih (v :: stack) (seen ++ [v])
      have hnot (u : V) (hu : u ∈ new) : u ∉ seen ∧ u ≠ v := by
        have hu := (hnew u hu).2
        rw [List.mem_append, not_or, List.mem_singleton] at hu
        exact hu
      rw [List.append_assoc] at heq hall
      refine ⟨v :: new, ?_, List.nodup_cons.2 ⟨fun hm => (hnot v hm).2 rfl, hnd⟩, ?_, ?_⟩
      · rw [heq, List.reverse_cons, List.append_assoc]
        rfl
      · exact List.forall_mem_cons.2
          ⟨⟨.head _, hv⟩, fun u hu => ⟨.tail _ (hnew u hu).1, (hnot u hu).1⟩⟩
      · exact List.forall_mem_cons.2 ⟨List.mem_append_right _ (.head _), hall⟩

/-- What holds of the stack and of the vertices seen while those reached from `roots` are
marked. -/
structure Marking (succ : V → List V) (roots : List V) (A : Finset V)
    (stack seen : List V) : Prop where
  root_mem : ∀ r ∈ roots, r ∈ seen
  stack_mem : ∀ v ∈ stack, v ∈ seen
  sub : ∀ v ∈ seen, v ∈ A
  nodup : seen.Nodup
  done : ∀ v ∈ seen, v ∉ stack → ∀ w ∈ succ v, w ∈ seen
  reach : ∀ v ∈ seen, ∃ r ∈ roots, Reach succ r v

theorem Marking.length_le (h : Marking succ roots A stack seen) : seen.length ≤ A.card := by
  rw [← List.toFinset_card_of_nodup h.nodup]
  exact Finset.card_le_card fun v hv => h.sub v (List.mem_toFinset.1 hv)

theorem Marking.step (h : Marking succ roots A (v :: stack) seen)
    (hA : ∀ v ∈ A, ∀ w ∈ succ v, w ∈ A) : ∃ new, (succ v).foldl push (stack, seen) =
      (new.reverse ++ stack, seen ++ new) ∧
        Marking succ roots A (new.reverse ++ stack) (seen ++ new) := by
  obtain ⟨new, heq, hnd, hnew, hall⟩ := foldl_push (succ v) stack seen
  have hv := h.stack_mem v (.head _)
  refine ⟨new, heq, ?_⟩
  constructor
  · intro r hr
    exact List.mem_append_left _ (h.root_mem r hr)
  · intro u hu
    rcases List.mem_append.1 hu with hu | hu
    · exact List.mem_append_right _ (List.mem_reverse.1 hu)
    · exact List.mem_append_left _ (h.stack_mem u (.tail _ hu))
  · intro u hu
    rcases List.mem_append.1 hu with hu | hu
    · exact h.sub u hu
    · exact hA v (h.sub v hv) u (hnew u hu).1
  · refine List.nodup_append.2 ⟨h.nodup, hnd, ?_⟩
    rintro u hu _ hu' rfl
    exact (hnew u hu').2 hu
  · intro u hu hstack w hw
    rw [List.mem_append, not_or, List.mem_reverse] at hstack
    by_cases huv : u = v
    · exact hall w (huv ▸ hw)
    · have hu := (List.mem_append.1 hu).resolve_right hstack.1
      exact List.mem_append_left _
        (h.done u hu (fun hm => (List.mem_cons.1 hm).elim huv hstack.2) w hw)
  · intro u hu
    rcases List.mem_append.1 hu with hu | hu
    · exact h.reach u hu
    · obtain ⟨r, hr, hrv⟩ := h.reach v hv
      exact ⟨r, hr, hrv.tail (hnew u hu).1⟩

omit [DecidableEq V] in
theorem Marking.mem_iff (h : Marking succ roots A [] seen) : v ∈ seen ↔
      ∃ r ∈ roots, Reach succ r v := by
  constructor
  · exact h.reach v
  · rintro ⟨r, hr, hrv⟩
    have hclosed : Closed succ (· ∈ seen) := fun a b ha hb => h.done a ha List.not_mem_nil b hb
    exact hclosed.reach (h.root_mem r hr) hrv

/-- Each vertex is put on the stack once, so that the marking ends; it ends with what is
reached. -/
theorem Marking.mark (h : Marking succ roots A stack seen) (hA : ∀ v ∈ A, ∀ w ∈ succ v, w ∈ A)
    (hn : stack.length + A.card ≤ n + seen.length) :
    ∃ l, mark succ n stack seen = some l ∧ l.Nodup ∧
    ∀ v, v ∈ l ↔ ∃ r ∈ roots, Reach succ r v := by
  induction n generalizing stack seen with
  | zero =>
    cases stack with
    | nil => exact ⟨seen, rfl, h.nodup, fun v => h.mem_iff⟩
    | cons v stack =>
      have hle := h.length_le
      rw [List.length_cons] at hn
      omega
  | succ n ih =>
    cases stack with
    | nil => exact ⟨seen, rfl, h.nodup, fun v => h.mem_iff⟩
    | cons v stack =>
      obtain ⟨new, heq, hnew⟩ := h.step hA
      rw [Graph.mark, heq]
      apply ih hnew
      rw [List.length_cons] at hn
      rw [List.length_append, List.length_append, List.length_reverse]
      omega

theorem mark_roots (hA : ∀ v ∈ A, ∀ w ∈ succ v, w ∈ A) (hroots : ∀ r ∈ roots, r ∈ A)
    (hn : roots.length + A.card ≤ n) :
    ∃ l, mark succ n roots.reverse roots.dedup = some l ∧ l.Nodup ∧
    ∀ v, v ∈ l ↔ ∃ r ∈ roots, Reach succ r v := by
  have h : Marking succ roots A roots.reverse roots.dedup := by
    constructor
    · intro r hr
      exact List.mem_dedup.2 hr
    · intro v hv
      exact List.mem_dedup.2 (List.mem_reverse.1 hv)
    · intro v hv
      exact hroots v (List.mem_dedup.1 hv)
    · exact List.nodup_dedup roots
    · intro v hv hn
      exact absurd (List.mem_reverse.2 (List.mem_dedup.1 hv)) hn
    · intro v hv
      exact ⟨v, List.mem_dedup.1 hv, .refl⟩
  apply h.mark hA
  rw [List.length_reverse]
  omega

/-! ## Numbers -/

/-- Numbers what is reached from a vertex; the number that comes next, and those given so far,
where zero is none. -/
def number (succ : V → List V) : Nat → V → Nat × (V → Nat) → Option (Nat × (V → Nat))
  | 0, _, _ => none
  | n + 1, v, p =>
    if p.2 v ≠ 0 then some p
    else (succ v).foldlM (fun p w => number succ n w p) (p.1 + 1, Function.update p.2 v p.1)

theorem number_mono {p q : Nat × (V → Nat)} (h : number succ n v p = some q) (hle : n ≤ m) :
    number succ m v p = some q := by
  induction n generalizing m v p q with
  | zero => cases h
  | succ n ih =>
    obtain ⟨m, rfl⟩ := Nat.exists_eq_add_of_le' (Nat.le_trans (Nat.le_add_left 1 n) hle)
    have hfold (ws : List V) (p : Nat × (V → Nat))
        (hp : ws.foldlM (fun p w => number succ n w p) p = some q) :
        ws.foldlM (fun p w => number succ m w p) p = some q := by
      induction ws generalizing p with
      | nil => exact hp
      | cons w ws ihws =>
        rw [List.foldlM_cons] at hp ⊢
        obtain ⟨r, hr, hp⟩ := Option.bind_eq_some_iff.1 hp
        rw [ih hr (Nat.le_of_succ_le_succ hle)]
        exact ihws r hp
    rw [number] at h ⊢
    split_ifs at h ⊢ with hv
    · exact h
    · exact hfold _ _ h

/-- What a call that numbers the vertices reached from `ws` does to the numbers. -/
structure Numbers (succ : V → List V) (ws : List V) (p q : Nat × (V → Nat)) : Prop where
  le : p.1 ≤ q.1
  keep : ∀ v, p.2 v ≠ 0 → q.2 v = p.2 v
  new : ∀ v, p.2 v = 0 → q.2 v ≠ 0 → p.1 ≤ q.2 v ∧ q.2 v < q.1 ∧ ∃ w ∈ ws, Reach succ w v
  inj : ∀ u v, p.2 u = 0 → p.2 v = 0 → q.2 u ≠ 0 → q.2 u = q.2 v → u = v
  onto : ∀ k, p.1 ≤ k → k < q.1 → ∃ v, p.2 v = 0 ∧ q.2 v = k
  done : ∀ v, p.2 v = 0 → q.2 v ≠ 0 → ∀ w ∈ succ v, q.2 w ≠ 0
  all : ∀ w ∈ ws, q.2 w ≠ 0

variable {p q r : Nat × (V → Nat)} {ws' : List V}

namespace Numbers

omit [DecidableEq V]

theorem refl (p : Nat × (V → Nat)) (h : ∀ w ∈ ws, p.2 w ≠ 0) : Numbers succ ws p p where
  le := Nat.le_refl _
  keep := fun _ _ => rfl
  new := fun _ h h' => absurd h h'
  inj := fun _ _ h _ h' => absurd h h'
  onto := fun _ h h' => absurd h (Nat.not_le.2 h')
  done := fun _ h h' => absurd h h'
  all := h

theorem ne_zero (h : Numbers succ ws p q) (hv : p.2 v ≠ 0) : q.2 v ≠ 0 := by
  rw [h.keep v hv]
  exact hv

theorem eq_zero (h : Numbers succ ws p q) (hv : q.2 v = 0) : p.2 v = 0 := by
  by_contra hne
  exact h.ne_zero hne hv

theorem trans (h : Numbers succ ws p q) (h' : Numbers succ ws' q r) (hp : 0 < p.1) :
    Numbers succ (ws ++ ws') p r := by
  constructor
  · exact Nat.le_trans h.le h'.le
  · intro v hv
    rw [h'.keep v (h.ne_zero hv), h.keep v hv]
  · intro v hv hv'
    by_cases hq : q.2 v = 0
    · obtain ⟨hle, hlt, w, hw, hwv⟩ := h'.new v hq hv'
      exact ⟨Nat.le_trans h.le hle, hlt, w, List.mem_append_right _ hw, hwv⟩
    · obtain ⟨hle, hlt, w, hw, hwv⟩ := h.new v hv hq
      rw [h'.keep v hq]
      exact ⟨hle, Nat.lt_of_lt_of_le hlt h'.le, w, List.mem_append_left _ hw, hwv⟩
  · intro u v hu hv hu' heq
    by_cases hqu : q.2 u = 0
    · by_cases hqv : q.2 v = 0
      · exact h'.inj u v hqu hqv hu' heq
      · have hlt := (h.new v hv hqv).2.1
        have hle := (h'.new u hqu hu').1
        rw [h'.keep v hqv] at heq
        omega
    · by_cases hqv : q.2 v = 0
      · have hlt := (h.new u hu hqu).2.1
        have hle := (h'.new v hqv (heq ▸ hu')).1
        rw [h'.keep u hqu] at heq
        omega
      · rw [h'.keep u hqu, h'.keep v hqv] at heq
        exact h.inj u v hu hv hqu heq
  · intro k hk hk'
    by_cases hq : k < q.1
    · obtain ⟨v, hv, hvk⟩ := h.onto k hk hq
      have hne : q.2 v ≠ 0 := by omega
      exact ⟨v, hv, (h'.keep v hne).trans hvk⟩
    · obtain ⟨v, hv, hvk⟩ := h'.onto k (Nat.not_lt.1 hq) hk'
      exact ⟨v, h.eq_zero hv, hvk⟩
  · intro v hv hv' w hw
    by_cases hq : q.2 v = 0
    · exact h'.done v hq hv' w hw
    · exact h'.ne_zero (h.done v hv hq w hw)
  · intro w hw
    rcases List.mem_append.1 hw with hw | hw
    · exact h'.ne_zero (h.all w hw)
    · exact h'.all w hw

end Numbers

omit [DecidableEq V] in
theorem Numbers.visit (hv : p.2 v = 0) (hp : 0 < p.1)
    (hnext : r.1 = p.1 + 1) (hnum : r.2 v = p.1)
    (hother : ∀ u, u ≠ v → r.2 u = p.2 u) (h : Numbers succ (succ v) r q) :
    Numbers succ [v] p q := by
  have hself : q.2 v = p.1 := by
    rw [h.keep v (by omega), hnum]
  have hle : p.1 + 1 ≤ q.1 := hnext ▸ h.le
  have hnew (u : V) (huv : u ≠ v) (hu : p.2 u = 0) (hu' : q.2 u ≠ 0) : p.1 + 1 ≤ q.2 u := by
    rw [← hnext]
    exact (h.new u ((hother u huv).trans hu) hu').1
  constructor
  · exact Nat.le_of_succ_le hle
  · intro u hu
    have huv : u ≠ v := fun he => hu (he ▸ hv)
    rw [h.keep u (by rwa [hother u huv]), hother u huv]
  · intro u hu hu'
    by_cases huv : u = v
    · rw [huv, hself]
      exact ⟨Nat.le_refl _, hle, v, List.mem_singleton_self v, .refl⟩
    · obtain ⟨-, hlt, w, hw, hwu⟩ := h.new u ((hother u huv).trans hu) hu'
      exact ⟨Nat.le_of_succ_le (hnew u huv hu hu'), hlt, v,
        List.mem_singleton_self v, .head hw hwu⟩
  · intro u w hu hw hu' heq
    by_cases huv : u = v
    · by_cases hwv : w = v
      · rw [huv, hwv]
      · have hge := hnew w hwv hw (heq ▸ hu')
        rw [← heq, huv, hself] at hge
        omega
    · have hge := hnew u huv hu hu'
      by_cases hwv : w = v
      · rw [heq, hwv, hself] at hge
        omega
      · exact h.inj u w ((hother u huv).trans hu) ((hother w hwv).trans hw) hu' heq
  · intro k hk hk'
    rcases Nat.eq_or_lt_of_le hk with rfl | hk
    · exact ⟨v, hv, hself⟩
    · obtain ⟨u, hu, huk⟩ := h.onto k (hnext ▸ hk) hk'
      have huv : u ≠ v := by
        rintro rfl
        omega
      exact ⟨u, (hother u huv).symm.trans hu, huk⟩
  · intro u hu hu' w hw
    by_cases huv : u = v
    · exact h.all w (huv ▸ hw)
    · exact h.done u ((hother u huv).trans hu) hu' w hw
  · intro w hw
    rw [List.mem_singleton.1 hw, hself]
    omega

omit [DecidableEq V] in
theorem Numbers.ne_zero_of_reach (h : Numbers succ [v] p q)
    (hz : ∀ u, Reach succ v u → p.2 u = 0)
    (hw : Reach succ v w) : q.2 w ≠ 0 := by
  induction hw with
  | refl => exact h.all v (List.mem_singleton_self v)
  | tail hvu huw ih => exact h.done _ (hz _ hvu) ih _ huw

omit [DecidableEq V] in
/-- If nothing that is reached has a number before, then all of it is numbered, from the next
number on and without gaps. -/
theorem Numbers.bijOn (h : Numbers succ [v] p q) (hz : ∀ u, Reach succ v u → p.2 u = 0)
    (hp : 0 < p.1) : Set.BijOn q.2 {u | Reach succ v u} (Set.Ico p.1 q.1) := by
  refine ⟨fun u hu => ?_, fun u hu w hw heq => ?_, fun k hk => ?_⟩
  · obtain ⟨hle, hlt, -⟩ := h.new u (hz u hu) (h.ne_zero_of_reach hz hu)
    exact ⟨hle, hlt⟩
  · exact h.inj u w (hz u hu) (hz w hw) (h.ne_zero_of_reach hz hu) heq
  · obtain ⟨u, hu, rfl⟩ := h.onto k hk.1 hk.2
    obtain ⟨-, -, w, hw, hwu⟩ := h.new u hu (Nat.ne_of_gt (Nat.lt_of_lt_of_le hp hk.1))
    cases List.mem_singleton.1 hw
    exact ⟨u, hwu, rfl⟩

def unnumbered (A : Finset V) (num : V → Nat) : Nat := (A.filter fun v => num v = 0).card

omit [DecidableEq V] in
theorem Numbers.unnumbered_le (h : Numbers succ ws p q) :
    unnumbered A q.2 ≤ unnumbered A p.2 := by
  apply Finset.card_le_card
  intro v hv
  rw [Finset.mem_filter] at hv ⊢
  exact ⟨hv.1, h.eq_zero hv.2⟩

theorem unnumbered_update {num : V → Nat} {k : Nat} (hv : v ∈ A) (h : num v = 0) (hk : 0 < k) :
    unnumbered A (Function.update num v k) < unnumbered A num := by
  have hself : Function.update num v k v = k := Function.update_self ..
  apply Finset.card_lt_card
  rw [Finset.ssubset_iff_of_subset]
  · refine ⟨v, Finset.mem_filter.2 ⟨hv, h⟩, fun hm => ?_⟩
    rw [Finset.mem_filter, hself] at hm
    omega
  · intro u hu
    rw [Finset.mem_filter] at hu ⊢
    by_cases huv : u = v
    · rw [huv]
      exact ⟨hv, h⟩
    · rw [Function.update_of_ne huv] at hu
      exact hu

/-- Every call numbers a vertex first, so that the numbering ends. -/
theorem number_spec (hA : ∀ v ∈ A, ∀ w ∈ succ v, w ∈ A) (hv : v ∈ A) (hp : 0 < p.1)
    (hn : unnumbered A p.2 < n) : ∃ q, number succ n v p = some q ∧ Numbers succ [v] p q := by
  induction n generalizing v p with
  | zero => exact absurd hn (Nat.not_lt_zero _)
  | succ n ih =>
    have hfold (ws : List V) (p : Nat × (V → Nat)) (hws : ∀ w ∈ ws, w ∈ A) (hp : 0 < p.1)
        (hn : unnumbered A p.2 < n) :
        ∃ q, ws.foldlM (fun p w => number succ n w p) p = some q ∧ Numbers succ ws p q := by
      induction ws generalizing p with
      | nil => exact ⟨p, rfl, .refl p nofun⟩
      | cons w ws ihws =>
        obtain ⟨hw, hws⟩ := List.forall_mem_cons.1 hws
        obtain ⟨q, hq, hpq⟩ := ih hw hp hn
        obtain ⟨r, hr, hqr⟩ := ihws q hws (Nat.lt_of_lt_of_le hp hpq.le)
          (Nat.lt_of_le_of_lt hpq.unnumbered_le hn)
        refine ⟨r, ?_, hpq.trans hqr hp⟩
        rw [List.foldlM_cons, hq]
        exact hr
    rw [number]
    by_cases hz : p.2 v = 0
    · have hless := unnumbered_update hv hz hp
      obtain ⟨q, hq, hpq⟩ := hfold (succ v) (p.1 + 1, Function.update p.2 v p.1) (hA v hv)
        (Nat.succ_pos _) (Nat.lt_of_lt_of_le hless (Nat.le_of_lt_succ hn))
      refine ⟨q, (if_neg (not_not.2 hz)).trans hq, ?_⟩
      exact hpq.visit hz hp rfl (Function.update_self ..) fun u hu => Function.update_of_ne hu ..
    · exact ⟨p, if_pos hz, .refl p (List.forall_mem_singleton.2 hz)⟩

end Misc.Lib.Graph
