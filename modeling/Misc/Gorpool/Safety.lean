import Misc.Gorpool.Pool

namespace Misc.Gorpool
open Misc.Lib
set_option autoImplicit true

/-- What becomes of a worker: it lies in the stack, a caller has taken it, a function waits in
its channel, it is busy, or it has shut down. -/
inductive Role
  | idle (i : Nat)
  | held (k : Nat)
  | loaded (k : Nat)
  | busy
  | down
  deriving DecidableEq

def Gor.Waits (w : Gor) : Prop := w.pc = .select ∨ w.pc = .expired

def Role.Of : Role → Gor → Prop
  | .idle i, w => w.idx = i ∧ w.ch = none ∧ w.Waits
  | .held _, w => w.idx = -1 ∧ w.ch = none ∧ w.Waits
  | .loaded k, w => w.idx = -1 ∧ w.ch = some k ∧ w.Waits
  | .busy, w => w.idx = -1 ∧ w.ch = none ∧ (w.pc = .returned ∨ ∃ k, w.pc = .running k)
  | .down, w => w.ch = none ∧ w.pc = .down

theorem Gor.Waits.away {w : Gor} (h : w.Waits) :
    ¬ (w.pc = .returned ∨ ∃ k, w.pc = .running k) ∧ w.pc ≠ .down := by
  rcases h with hpc | hpc
  all_goals
    rw [hpc]
    exact ⟨nofun, nofun⟩

theorem Role.Of.again {r : Role} {w : Gor} (h : r.Of w) (hw : w.Waits) {pc : GorPc}
    (hpc : pc = .select ∨ pc = .expired) : r.Of { w with pc } := by
  cases r with
  | idle i => exact ⟨h.1, h.2.1, hpc⟩
  | held k => exact ⟨h.1, h.2.1, hpc⟩
  | loaded k => exact ⟨h.1, h.2.1, hpc⟩
  | busy => exact absurd h.2.2 hw.away.1
  | down => exact absurd h.2 hw.away.2

theorem Role.Of.stacked {r : Role} {w : Gor} (h : r.Of w) (hw : w.Waits) (hidx : 0 ≤ w.idx) :
    r = .idle w.idx.toNat := by
  cases r with
  | idle i =>
    have hi := h.1
    congr
    omega
  | held k =>
    have hneg := h.1
    omega
  | loaded k =>
    have hneg := h.1
    omega
  | busy => exact absurd h.2.2 hw.away.1
  | down => exact absurd h.2 hw.away.2

namespace Pool

/-- The roles of the workers account for the stack, the callers and the functions. -/
structure Inv (p : Pool) (role : Nat → Option Role) : Prop where
  gor : ∀ g r, role g = some r → ∃ w, p.gors g = some w ∧ r.Of w
  absent : ∀ g, role g = none → p.gors g = none
  idle : ∀ i g, p.idle[i]? = some g ↔ role g = some (.idle i)
  held : ∀ k g, p.calls k = .send g ↔ role g = some (.held k)
  loaded : ∀ k g, role g = some (.loaded k) → p.calls k = .returned ∧ k ∉ p.ran
  single : ∀ k g g', role g = some (.loaded k) → role g' = some (.loaded k) → g = g'
  placed : ∀ k, p.calls k = .returned → k ∈ p.ran ∨ ∃ g, role g = some (.loaded k)
  ran : ∀ k ∈ p.ran, p.calls k = .returned
  once : p.ran.Nodup
  fresh : ∀ g, p.next ≤ g → role g = none
  sane : p.panicked = false

section
variable {p p' : Pool} {role : Nat → Option Role} {g k : Nat} {w : Gor} {a : Act} {pc : CallPc}

theorem Inv.setCall (h : p.Inv role) (hold : p.calls k ≠ .returned ∧ ∀ g, p.calls k ≠ .send g)
    (hnew : pc ≠ .returned ∧ ∀ g, pc ≠ .send g) : (p.setCall k pc).Inv role := by
  obtain ⟨gor, absent, idle, held, loaded, single, placed, ran, once, fresh, sane⟩ := h
  refine ⟨gor, absent, idle, ?_, ?_, single, ?_, ?_, once, fresh, sane⟩
  all_goals
    dsimp only [Pool.setCall]
    grind

theorem Inv.setGor {r : Role} (h : p.Inv role) (hr : role g = some r) (hw : r.Of w) :
    (p.setGor g w).Inv role := by
  obtain ⟨gor, absent, idle, held, loaded, single, placed, ran, once, fresh, sane⟩ := h
  refine ⟨?_, ?_, idle, held, loaded, single, placed, ran, once, fresh, sane⟩
  all_goals
    dsimp only [Pool.setGor]
    grind

theorem exists_loaded {r : Role} (hg : role g ≠ some (.loaded k))
    (h : ∃ g', role g' = some (.loaded k)) :
    ∃ g', Function.update role g (some r) g' = some (.loaded k) := by
  obtain ⟨g', hg'⟩ := h
  have hne : g' ≠ g := by
    rintro rfl
    exact hg hg'
  exact ⟨g', (Function.update_of_ne hne ..).trans hg'⟩

theorem Inv.take {l : List Nat} (h : p.Inv role) (hk : p.calls k = .called)
    (hl : p.idle = l ++ [g]) : (({ p with idle := l }.setIdx g (-1)).setCall k (.send g)).Inv
      (Function.update role g (some (.held k))) := by
  obtain ⟨gor, absent, idle, held, loaded, single, placed, ran, once, fresh, sane⟩ := h
  have hg : role g = some (.idle l.length) := by
    rw [← idle, hl]
    simp
  obtain ⟨w, hw, -, hch, hwaits⟩ := gor g _ hg
  have hheld : (Role.held k).Of { w with idx := -1 } := ⟨rfl, hch, hwaits⟩
  have hrest (i g' : Nat) : l[i]? = some g' ↔ role g' = some (.idle i) ∧ g' ≠ g := by
    have hi := idle i g'
    rw [hl] at hi
    grind
  refine ⟨?_, ?_, ?_, ?_, ?_, ?_, ?placed, ?_, once, ?_, sane⟩
  all_goals try dsimp only [Pool.setCall, Pool.setIdx]
  case placed =>
    intro k' hk'
    exact (placed k' (by grind)).imp_right (exists_loaded (by grind))
  all_goals grind

theorem Inv.create (h : p.Inv role) (hk : p.calls k = .create) :
    (p.create k).Inv (Function.update role p.next (some (.held k))) := by
  obtain ⟨gor, absent, idle, held, loaded, single, placed, ran, once, fresh, sane⟩ := h
  have hg : role p.next = none := fresh p.next (Nat.le_refl _)
  have hw : (Role.held k).Of ⟨none, -1, .select⟩ := ⟨rfl, rfl, .inl rfl⟩
  refine ⟨?_, ?_, ?_, ?_, ?_, ?_, ?placed, ?_, once, ?_, sane⟩
  all_goals try dsimp only [Pool.create, Pool.setCall, Pool.setGor]
  case placed =>
    intro k' hk'
    exact (placed k' (by grind)).imp_right (exists_loaded (by grind))
  all_goals grind

theorem Inv.send (h : p.Inv role) (hk : p.calls k = .send g) (hw : (Role.loaded k).Of w) :
    ((p.setGor g w).setCall k .returned).Inv (Function.update role g (some (.loaded k))) := by
  obtain ⟨gor, absent, idle, held, loaded, single, placed, ran, once, fresh, sane⟩ := h
  have hg : role g = some (.held k) := (held k g).1 hk
  refine ⟨?_, ?_, ?_, ?_, ?_, ?_, ?placed, ?_, once, ?_, sane⟩
  all_goals try dsimp only [Pool.setCall, Pool.setGor]
  case placed =>
    intro k' hk'
    by_cases he : k' = k
    · subst he
      exact .inr ⟨g, Function.update_self ..⟩
    · exact (placed k' (by grind)).imp_right (exists_loaded (by grind))
  all_goals grind

theorem Inv.recv (h : p.Inv role) (hg : role g = some (.loaded k)) (hw : Role.busy.Of w) :
    ({ p.setGor g w with ran := p.ran ++ [k] }).Inv (Function.update role g (some .busy)) := by
  obtain ⟨gor, absent, idle, held, loaded, single, placed, ran, once, fresh, sane⟩ := h
  have hk := loaded k g hg
  refine ⟨?_, ?_, ?_, ?_, ?_, ?_, ?placed, ?_, ?_, ?_, sane⟩
  all_goals try dsimp only [Pool.setGor]
  case placed =>
    intro k' hk'
    by_cases he : k' = k
    · subst he
      exact .inl (List.mem_append_right _ List.mem_cons_self)
    · exact (placed k' hk').imp (List.mem_append_left _) (exists_loaded (by grind))
  all_goals grind

theorem Inv.push (h : p.Inv role) (hg : role g = some .busy)
    (hw : (Role.idle p.idle.length).Of w) : ({ p.setGor g w with idle := p.idle ++ [g] }).Inv
      (Function.update role g (some (.idle p.idle.length))) := by
  obtain ⟨gor, absent, idle, held, loaded, single, placed, ran, once, fresh, sane⟩ := h
  refine ⟨?_, ?_, ?idle, ?_, ?_, ?_, ?placed, ?_, once, ?_, sane⟩
  all_goals try dsimp only [Pool.setGor]
  case idle =>
    intro i g'
    have hi := idle i g'
    grind
  case placed =>
    intro k' hk'
    exact (placed k' hk').imp_right (exists_loaded (by grind))
  all_goals grind

theorem Inv.remove {i t : Nat} {l : List Nat} {gors : Nat → Option Gor} (h : p.Inv role)
    (hg : role g = some (.idle i)) (hl : p.idle = l ++ [t])
    (hrest : ∀ g', g' ≠ t → g' ≠ g → gors g' = p.gors g')
    (ht : t ≠ g → ∃ w, gors t = some w ∧ (Role.idle i).Of w)
    (hdown : ∃ w, gors g = some w ∧ Role.down.Of w) :
    ({ p with gors, idle := l.set i t }).Inv
      (Function.update (Function.update role t (some (.idle i))) g (some .down)) := by
  obtain ⟨gor, absent, idle, held, loaded, single, placed, ran, once, fresh, sane⟩ := h
  have hlast : role t = some (.idle l.length) := by
    rw [← idle, hl]
    simp
  have hplace := (idle i g).2 hg
  rw [hl] at hplace
  refine ⟨?_, ?_, ?idle, ?_, ?_, ?_, ?placed, ?_, once, ?_, sane⟩
  all_goals try dsimp only
  case idle =>
    intro j g'
    have hj := idle j g'
    rw [hl] at hj
    by_cases he : g' = g
    · grind
    · grind
  case placed =>
    intro k' hk'
    exact (placed k' hk').imp_right fun hg' =>
      exists_loaded (by grind) (exists_loaded (by grind) hg')
  all_goals grind

theorem Inv.pop (h : p.Inv role) (hk : p.calls k = .called) : ∃ role', (p.pop k).Inv role' := by
  rw [Pool.pop]
  split
  · next g hg =>
    obtain ⟨l, hl⟩ := List.getLast?_eq_some_iff.1 hg
    rw [hl, List.dropLast_concat]
    exact ⟨_, h.take hk hl⟩
  · refine ⟨role, h.setCall ?_ ⟨nofun, nofun⟩⟩
    rw [hk]
    exact ⟨nofun, nofun⟩

theorem Inv.find (h : p.Inv role) (hg : p.gors g = some w) : ∃ r, role g = some r ∧ r.Of w := by
  cases hr : role g with
  | none =>
    rw [h.absent g hr] at hg
    cases hg
  | some r =>
    obtain ⟨w', hw', hof⟩ := h.gor g r hr
    cases hw'.symm.trans hg
    exact ⟨r, rfl, hof⟩

theorem Inv.shut (h : p.Inv role) (hg : p.gors g = some w) (hw : w.pc = .expired) :
    ∃ role', (p.shut g w).Inv role' := by
  obtain ⟨r, hr, hof⟩ := h.find hg
  rw [Pool.shut]
  split_ifs with hidx
  · cases hof.stacked (.inr hw) hidx
    obtain ⟨hi, hch, -⟩ := hof
    have hplace := (h.idle _ g).2 hr
    have hlen := (List.getElem?_eq_some_iff.1 hplace).1
    obtain ⟨l, t, hl⟩ : ∃ l t, p.idle = l ++ [t] := by
      obtain hnil | ⟨l, t, hl⟩ := List.eq_nil_or_concat' p.idle
      · rw [hnil] at hlen
        cases hlen
      · exact ⟨l, t, hl⟩
    have hlast : role t = some (.idle l.length) := by
      rw [← h.idle, hl]
      simp
    have hset : (p.idle.set w.idx.toNat t).dropLast = l.set w.idx.toNat t := by
      rw [hl]
      grind
    rw [Pool.remove, hl, List.getLast?_concat, Option.bind_some, ← hl, if_pos hlen, hset]
    dsimp only [Pool.setIdx]
    refine ⟨_, h.remove hr hl ?_ ?_ ?_⟩
    · intro g' hgt hgg
      rw [Function.update_of_ne hgg, Function.update_of_ne hgt]
    · intro hne
      obtain ⟨w', hw', -, hch', hwaits'⟩ := h.gor t _ hlast
      refine ⟨{ w' with idx := w.idx }, ?_, hi, hch', hwaits'⟩
      rw [Function.update_of_ne hne, Function.update_self, hw', Option.map_some]
    · refine ⟨{ w with pc := .down }, ?_, hch, rfl⟩
      rw [Function.update_self]
      by_cases he : g = t
      · subst he
        rw [Function.update_self, hg]
        rfl
      · rw [Function.update_of_ne he, hg]
        rfl
  · exact ⟨role, h.setGor hr (hof.again (.inr hw) (.inl rfl))⟩

theorem Inv.gorproc (h : p.Inv role) (hg : p.gors g = some w) (hs : p.gorproc g w a = some p') :
    ∃ role', p'.Inv role' := by
  obtain ⟨r, hr, hof⟩ := h.find hg
  rw [Pool.gorproc.eq_def] at hs
  cases a with
  | recv =>
    dsimp only at hs
    split at hs
    · next k hpc hch =>
      cases hs
      cases r with
      | loaded j =>
        cases hof.2.1.symm.trans hch
        exact ⟨_, h.recv hr ⟨hof.1, rfl, .inr ⟨_, rfl⟩⟩⟩
      | idle | held | busy => cases hof.2.1.symm.trans hch
      | down => cases hof.1.symm.trans hch
    · cases hs
  | ret =>
    dsimp only at hs
    split at hs
    · next k hpc =>
      cases hs
      cases r with
      | busy => exact ⟨role, h.setGor hr ⟨hof.1, hof.2.1, .inl rfl⟩⟩
      | idle | held | loaded =>
        rcases hof.2.2 with hwaits | hwaits
        · cases hwaits.symm.trans hpc
        · cases hwaits.symm.trans hpc
      | down => cases hof.2.symm.trans hpc
    · cases hs
  | push =>
    obtain ⟨hpc, hs⟩ := Option.ite_none_right_eq_some.1 hs
    cases hs
    cases r with
    | busy => exact ⟨_, h.push hr ⟨rfl, hof.2.1, .inl rfl⟩⟩
    | idle | held | loaded =>
      rcases hof.2.2 with hwaits | hwaits
      · cases hwaits.symm.trans hpc
      · cases hwaits.symm.trans hpc
    | down => cases hof.2.symm.trans hpc
  | expire =>
    obtain ⟨hpc, hs⟩ := Option.ite_none_right_eq_some.1 hs
    cases hs
    exact ⟨role, h.setGor hr (hof.again (.inl hpc) (.inr rfl))⟩
  | shut =>
    obtain ⟨hpc, hs⟩ := Option.ite_none_right_eq_some.1 hs
    cases hs
    exact h.shut hg hpc
  | go | pop | create | send => cases hs

theorem Inv.step (h : p.Inv role) (hs : p.step a = some p') : ∃ role', p'.Inv role' := by
  rw [Pool.step.eq_def, if_neg (by rw [h.sane]; exact Bool.false_ne_true)] at hs
  cases a with
  | go k =>
    obtain ⟨hk, hs⟩ := Option.ite_none_right_eq_some.1 hs
    cases hs
    refine ⟨role, h.setCall ?_ ⟨nofun, nofun⟩⟩
    rw [hk]
    exact ⟨nofun, nofun⟩
  | pop k =>
    obtain ⟨hk, hs⟩ := Option.ite_none_right_eq_some.1 hs
    cases hs
    exact h.pop hk
  | create k =>
    obtain ⟨hk, hs⟩ := Option.ite_none_right_eq_some.1 hs
    cases hs
    exact ⟨_, h.create hk⟩
  | send k =>
    dsimp only at hs
    split at hs
    · next g hk =>
      obtain ⟨w, hw, hs⟩ := Option.bind_eq_some_iff.1 hs
      obtain ⟨-, hs⟩ := Option.ite_none_right_eq_some.1 hs
      cases hs
      obtain ⟨w', hw', hidx, -, hwaits⟩ := h.gor g _ ((h.held k g).1 hk)
      cases hw'.symm.trans hw
      exact ⟨_, h.send hk ⟨hidx, rfl, hwaits⟩⟩
    · cases hs
  | recv g | ret g | push g | expire g | shut g =>
    obtain ⟨w, hw, hs⟩ := Option.bind_eq_some_iff.1 hs
    exact h.gorproc hw hs

theorem Inv.new : new.Inv fun _ => none where
  gor _ _ hr := nomatch hr
  absent _ _ := rfl
  idle _ _ := iff_of_false nofun nofun
  held _ _ := iff_of_false nofun nofun
  loaded _ _ hr := nomatch hr
  single _ _ _ hr := nomatch hr
  placed _ hk := nomatch hk
  ran _ hk := nomatch hk
  once := List.nodup_nil
  fresh _ _ := rfl
  sane := rfl

/-- The stack and its indices are right, and no function is lost or started twice. -/
structure Safe (p : Pool) : Prop where
  index : ∀ (i : Nat) g, p.idle[i]? = some g → ∃ w, p.gors g = some w ∧ w.idx = i
  out : ∀ g w, p.gors g = some w → w.idx = -1 → g ∉ p.idle
  free : ∀ g ∈ p.idle, ∃ w, p.gors g = some w ∧ w.ch = none ∧ w.pc ≠ .down
  down : ∀ g w, p.gors g = some w → w.pc = .down → w.ch = none
  ready : ∀ k g, p.calls k = .send g → ∃ w, p.gors g = some w ∧ w.ch = none
  kept : ∀ k, p.calls k = .returned →
    k ∈ p.ran ∨ ∃ g w, p.gors g = some w ∧ w.ch = some k ∧ w.pc ≠ .down
  once : p.ran.Nodup
  sane : p.panicked = false

theorem Inv.safe (h : p.Inv role) : p.Safe where
  index i g hi := by
    obtain ⟨w, hw, hidx, -⟩ := h.gor g _ ((h.idle i g).1 hi)
    exact ⟨w, hw, hidx⟩
  out g w hw hidx hmem := by
    obtain ⟨i, hi⟩ := List.mem_iff_getElem?.1 hmem
    obtain ⟨w', hw', hi', -⟩ := h.gor g _ ((h.idle i g).1 hi)
    cases hw'.symm.trans hw
    omega
  free g hmem := by
    obtain ⟨i, hi⟩ := List.mem_iff_getElem?.1 hmem
    obtain ⟨w, hw, -, hch, hwaits⟩ := h.gor g _ ((h.idle i g).1 hi)
    exact ⟨w, hw, hch, hwaits.away.2⟩
  down g w hw hpc := by
    obtain ⟨r, -, hof⟩ := h.find hw
    cases r with
    | down => exact hof.1
    | idle | held | busy => exact hof.2.1
    | loaded k => exact absurd hpc (Gor.Waits.away hof.2.2).2
  ready k g hk := by
    obtain ⟨w, hw, -, hch, -⟩ := h.gor g _ ((h.held k g).1 hk)
    exact ⟨w, hw, hch⟩
  kept k hk := by
    apply (h.placed k hk).imp_right
    rintro ⟨g, hg⟩
    obtain ⟨w, hw, -, hch, hwaits⟩ := h.gor g _ hg
    exact ⟨g, w, hw, hch, hwaits.away.2⟩
  once := h.once
  sane := h.sane

/-- The pool is safe in every state that any interleaving of callers, workers and timers
reaches. -/
theorem pool_safe (p : Pool) (h : machine.Reach p) : p.Safe := by
  have hinv : ∃ role, p.Inv role := by
    apply h.invariant
    · rintro _ rfl
      exact ⟨_, .new⟩
    · rintro p a p' ⟨role, hp⟩ - hs
      exact hp.step hs
  obtain ⟨role, hp⟩ := hinv
  exact hp.safe

/-- A worker runs a function, waits and shuts down. -/
theorem pool_safe_shut : ∃ p, machine.Reach p ∧ p.gors 0 = some ⟨none, 0, .down⟩ ∧ p.Safe := by
  have h : ∃ p, machine.Reach p ∧ p.gors 0 = some ⟨none, 0, .down⟩ :=
    ⟨_,
      ⟨new, [.go 7, .pop 7, .create 7, .send 7, .recv 0, .ret 0, .push 0, .expire 0, .shut 0],
      rfl, .of_exec rfl⟩, rfl⟩
  obtain ⟨p, hp, hg⟩ := h
  exact ⟨p, hp, hg, pool_safe p hp⟩

end

end Pool

end Misc.Gorpool
