import Misc.Epaxos.Leader

namespace Misc.Epaxos
set_option autoImplicit true

/-- The Ok replies that the loop of `phase1` counts. -/
def counting (ep : Epaxos) (lib : Litu) : List (Option PreAcceptResp) →
      PreAccepting → List PreAcceptResp
  | [], _ => []
  | none :: results, t => counting ep lib results t
  | some resp :: results, t =>
    if resp.Ok then
      match t.count lib resp with
      | none => []
      | some t =>
        if ep.fastPathQuorum ≤ t.preAccepted ∨
          t.isDiff ∧ ep.majorityQuorum ≤ t.preAccepted then [resp]
        else resp :: counting ep lib results t
    else counting ep lib results { t with ins := t.ins.denied resp.Ballot }

def counted (ep : Epaxos) (lib : Litu) (ins : Instance) (results : List (Option PreAcceptResp)) :
    List PreAcceptResp :=
  match PreAccepting.start lib ins with
  | some t => counting ep lib results t
  | none => []

/-- `phase1` finds the dependencies of the reply equal to these. -/
def SameDeps (lib : Litu) (deps : List (Option InstanceId)) (resp : PreAcceptResp) : Prop :=
  ((lib.sortInstanceIds deps).bind fun c =>
    (lib.sortInstanceIds resp.Deps).bind fun c' => lib.equal eqPtr c c') = some true

instance (lib : Litu) (deps : List (Option InstanceId)) : DecidablePred (SameDeps lib deps) :=
  fun _ => inferInstanceAs (Decidable (_ = some true))

/-- What `slice.UnionSortedBy` returns has the elements of both slices. -/
def Slices.Unites (lib : Slices) : Prop :=
  ∀ a b c, lib.unionSortedBy cmpPtr a b = some c → ∀ w, w ∈ c ↔ w ∈ a ∨ w ∈ b

section
variable {ep : Epaxos} {lib : Litu} {ins : Instance} {t t' : PreAccepting} {resp : PreAcceptResp}
  {results : List (Option PreAcceptResp)} {l : List PreAcceptResp}
  {deps : List (Option InstanceId)}

theorem cmpInstanceId_eq_zero {a b : InstanceId} : cmpInstanceId a b = 0 ↔ a = b := by
  have hsub {x y : UInt64} (h : (x - y).toInt64 = 0) : x = y := by
    have hxy : x - y = 0 := congrArg Int64.toUInt64 h
    grind
  constructor
  · intro h
    rw [cmpInstanceId] at h
    split_ifs at h with hr
    · cases a
      cases b
      cases hr
      cases hsub h
      rfl
    · exact absurd (hsub h) hr
  · rintro rfl
    rw [cmpInstanceId, if_pos rfl]
    simp

theorem eqPtr_eq_true {a b : Option InstanceId} :
    eqPtr a b = some true ↔ ∃ i, a = some i ∧ b = some i := by
  cases a with
  | none => simp [eqPtr, cmpPtr]
  | some i =>
    cases b with
    | none => simp [eqPtr, cmpPtr]
    | some j =>
      have hzero : eqPtr (some i) (some j) = some true ↔ i = j := by
        simp [eqPtr, cmpPtr, cmpInstanceId_eq_zero]
      rw [hzero]
      constructor
      · rintro rfl
        exact ⟨i, rfl, rfl⟩
      · rintro ⟨k, hi, hj⟩
        exact Option.some.inj (hi.trans hj.symm)

theorem equal_iff_ids {c c' : List (Option InstanceId)} :
    lib.equal eqPtr c c' = some true ↔
      ∃ ids : List InstanceId, c = ids.map some ∧ c' = ids.map some := by
  rw [lib.equal_iff]
  constructor
  · intro h
    induction h with
    | nil => exact ⟨[], rfl, rfl⟩
    | cons hab _ ih =>
      obtain ⟨i, rfl, rfl⟩ := eqPtr_eq_true.1 hab
      obtain ⟨ids, rfl, rfl⟩ := ih
      exact ⟨i :: ids, rfl, rfl⟩
  · rintro ⟨ids, rfl, rfl⟩
    induction ids with
    | nil => exact .nil
    | cons i ids ih => exact .cons (eqPtr_eq_true.2 ⟨i, rfl, rfl⟩) ih

theorem sameDeps_iff : SameDeps lib deps resp ↔ ∃ ids : List InstanceId,
    lib.sortInstanceIds deps = some (ids.map some) ∧
      lib.sortInstanceIds resp.Deps = some (ids.map some) := by
  constructor
  · intro h
    obtain ⟨c, hc, h⟩ := Option.bind_eq_some_iff.1 h
    obtain ⟨c', hc', h⟩ := Option.bind_eq_some_iff.1 h
    obtain ⟨ids, rfl, rfl⟩ := equal_iff_ids.1 h
    exact ⟨ids, hc, hc'⟩
  · rintro ⟨ids, hc, hc'⟩
    rw [SameDeps, hc, hc']
    exact equal_iff_ids.2 ⟨ids, rfl, rfl⟩

theorem SameDeps.mem_iff (h : SameDeps lib deps resp) (w : Option InstanceId) :
    w ∈ resp.Deps ↔ w ∈ deps := by
  obtain ⟨ids, hc, hc'⟩ := sameDeps_iff.1 h
  rw [← (sortInstanceIds_perm hc').mem_iff, (sortInstanceIds_perm hc).mem_iff]

/-- What every counted reply and every denied one keeps, the loop of `phase1` keeps. -/
theorem preAccepting_counting {P : PreAccepting → List PreAcceptResp → Prop}
    (hdenied : ∀ t l ballot, P t l → P { t with ins := t.ins.denied ballot } l)
    (hcount : ∀ t t' l resp, t.count lib resp = some t' → P t l → P t' (l ++ [resp]))
    (hrun : preAccepting ep lib results t = some t') (h : P t l) :
    P t' (l ++ counting ep lib results t) := by
  induction results generalizing t l with
  | nil =>
    cases hrun
    rw [counting, List.append_nil]
    exact h
  | cons result results ih =>
    cases result with
    | none => exact ih hrun h
    | some resp =>
      rw [preAccepting] at hrun
      rw [counting]
      split_ifs at hrun ⊢
      · obtain ⟨t₁, ht₁, hrun⟩ := Option.bind_eq_some_iff.1 hrun
        rw [ht₁]
        dsimp only
        split_ifs at hrun ⊢
        · cases hrun
          exact hcount t t' l resp ht₁ h
        · have hnext := ih hrun (hcount t t₁ l resp ht₁ h)
          rwa [List.append_assoc, List.singleton_append] at hnext
      · exact ih hrun (hdenied t l resp.Ballot h)

theorem count_cases (hdeps : lib.sortInstanceIds deps = some t.ins.Deps)
    (h : t.count lib resp = some t') :
    SameDeps lib deps resp ∧ t' = { t with preAccepted := t.preAccepted + 1 } ∨
      ¬ SameDeps lib deps resp ∧ ∃ c mergedDeps, lib.sortInstanceIds resp.Deps = some c ∧
        lib.unionSortedBy cmpPtr t.mergedDeps c = some mergedDeps ∧
        t' = ⟨t.ins, mergedDeps, if t.maxSeq < resp.Seq then resp.Seq else t.maxSeq, true,
          t.preAccepted + 1⟩ := by
  obtain ⟨c, hc, h⟩ := Option.bind_eq_some_iff.1 h
  obtain ⟨same, hsame, h⟩ := Option.bind_eq_some_iff.1 h
  have hs : SameDeps lib deps resp ↔ same = true := by
    rw [SameDeps, hdeps, hc, Option.bind_some, Option.bind_some, hsame, Option.some_inj]
  rw [hs]
  split at h
  · next htrue =>
    cases h
    exact .inl ⟨htrue, rfl⟩
  · next hfalse =>
    obtain ⟨mergedDeps, hmerged, rfl⟩ := Option.map_eq_some_iff.1 h
    exact .inr ⟨hfalse, c, mergedDeps, hc, hmerged, rfl⟩

theorem count_preAccepted (h : t.count lib resp = some t') :
    t'.preAccepted = t.preAccepted + 1 := by
  obtain ⟨c, -, h⟩ := Option.bind_eq_some_iff.1 h
  obtain ⟨same, -, h⟩ := Option.bind_eq_some_iff.1 h
  split at h
  · cases h
    rfl
  · obtain ⟨mergedDeps, -, rfl⟩ := Option.map_eq_some_iff.1 h
    rfl

theorem SameDeps.count (hdeps : lib.sortInstanceIds deps = some t.ins.Deps)
    (h : SameDeps lib deps resp) :
    t.count lib resp = some { t with preAccepted := t.preAccepted + 1 } := by
  rw [SameDeps, hdeps, Option.bind_some] at h
  obtain ⟨c, hc, hequal⟩ := Option.bind_eq_some_iff.1 h
  rw [PreAccepting.count, hc, Option.bind_some, hequal]
  rfl

/-- How the variables of the loop of `phase1` follow from the replies counted. -/
structure Counts (lib : Litu) (ins : Instance) (t : PreAccepting)
    (l : List PreAcceptResp) : Prop where
  deps : lib.sortInstanceIds ins.Deps = some t.ins.Deps
  seq : t.ins.Seq = ins.Seq
  votes : t.preAccepted = l.length + 1
  isDiff : t.isDiff = true ↔ ∃ resp ∈ l, ¬ SameDeps lib ins.Deps resp
  maxSeq : ∀ seq, seq ≤ t.maxSeq ↔ seq ≤ ins.Seq ∨
    ∃ resp ∈ l, ¬ SameDeps lib ins.Deps resp ∧ seq ≤ resp.Seq

theorem Counts.start (h : PreAccepting.start lib ins = some t) : Counts lib ins t [] := by
  obtain ⟨deps, hdeps, rfl⟩ := Option.map_eq_some_iff.1 h
  exact ⟨hdeps, rfl, rfl, by simp, by simp⟩

theorem Counts.denied (h : Counts lib ins t l) (ballot : BallotNumber) :
    Counts lib ins { t with ins := t.ins.denied ballot } l := by
  obtain ⟨m, hm⟩ := t.ins.alike_denied ballot
  rw [hm]
  exact ⟨h.deps, h.seq, h.votes, h.isDiff, h.maxSeq⟩

theorem le_max_iff {a b c : UInt64} : a ≤ (if b < c then c else b) ↔ a ≤ b ∨ a ≤ c := by
  simp only [UInt64.le_iff_toNat_le]
  split_ifs with h
  · rw [UInt64.lt_iff_toNat_lt] at h
    omega
  · rw [UInt64.not_lt, UInt64.le_iff_toNat_le] at h
    omega

theorem Counts.count (h : Counts lib ins t l) (ht : t.count lib resp = some t') :
    Counts lib ins t' (l ++ [resp]) := by
  have hvotes : t.preAccepted + 1 = (l ++ [resp]).length + 1 := by
    rw [h.votes, List.length_append, List.length_singleton]
  have hexists {p : PreAcceptResp → Prop} : (∃ x ∈ l ++ [resp], p x) ↔
      (∃ x ∈ l, p x) ∨ p resp := by
    simp only [List.mem_append, List.mem_singleton, or_and_right, exists_or, exists_eq_left]
  obtain ⟨hs, rfl⟩ | ⟨hs, c, mergedDeps, -, -, rfl⟩ := count_cases h.deps ht
  · refine ⟨h.deps, h.seq, hvotes, ?_, ?_⟩
    · rw [hexists, h.isDiff, or_iff_left (not_not_intro hs)]
    · intro seq
      have hnot : ¬ (¬ SameDeps lib ins.Deps resp ∧ seq ≤ resp.Seq) := fun hn => hn.1 hs
      rw [h.maxSeq, hexists, or_iff_left hnot]
  · refine ⟨h.deps, h.seq, hvotes, ?_, ?_⟩
    · rw [hexists]
      exact iff_of_true rfl (.inr hs)
    · intro seq
      rw [hexists, le_max_iff, h.maxSeq, and_iff_right hs, or_assoc]

/-- The variables of `phase1` after its loop follow from the replies counted. -/
theorem counts {t₀ : PreAccepting} (h₀ : PreAccepting.start lib ins = some t₀)
    (h : preAccepting ep lib results t₀ = some t) :
    Counts lib ins t (counted ep lib ins results) := by
  rw [counted, h₀]
  exact preAccepting_counting (P := Counts lib ins) (fun _ _ ballot h => h.denied ballot)
    (fun _ _ _ _ ht h => h.count ht) h (.start h₀)

theorem next_goes (t : PreAccepting) : (t.next ep).ins ≠ none ↔
    ep.fastPathQuorum ≤ t.preAccepted ∧ t.isDiff = false ∨
      ep.majorityQuorum ≤ t.preAccepted := by
  rw [PreAccepting.next]
  split_ifs with hfast hless
  · exact iff_of_true (Option.some_ne_none _) (.inl hfast)
  · exact iff_of_false (not_not_intro rfl) fun h => h.elim hfast fun hm => Nat.not_le.2 hless hm
  · exact iff_of_true (Option.some_ne_none _) (.inr (Nat.not_lt.1 hless))

theorem preAccepted_goes (ep : Epaxos) (lib : Litu) (ins : Instance)
    (results : List (Option PreAcceptResp)) :
    (preAccepted ep lib ins results).bind Next.ins ≠ none ↔
      (preAccepted ep lib ins results).isSome ∧
        (ep.fastPathQuorum ≤ (counted ep lib ins results).length + 1 ∧
            (∀ resp ∈ counted ep lib ins results, SameDeps lib ins.Deps resp) ∨
          ep.majorityQuorum ≤ (counted ep lib ins results).length + 1) := by
  cases hnext : preAccepted ep lib ins results with
  | none => simp
  | some next =>
    obtain ⟨t₀, t, h₀, ht, rfl⟩ := preAccepted_eq_some.1 hnext
    have hc := counts h₀ ht
    have hsame : (∀ resp ∈ counted ep lib ins results, SameDeps lib ins.Deps resp) ↔
        t.isDiff = false := by
      rw [← Bool.not_eq_true, hc.isDiff]
      push Not
      rfl
    rw [Option.bind_some, next_goes, hsame, ← hc.votes]
    exact (and_iff_right rfl).symm

def oks (results : List (Option PreAcceptResp)) : List PreAcceptResp :=
  (results.filterMap id).filter fun resp => resp.Ok

/-- Where the fast path is no harder than a majority, the loop stops as soon as it can take
it. -/
theorem counting_take (hle : ep.fastPathQuorum ≤ ep.majorityQuorum)
    (hrun : preAccepting ep lib results t ≠ none) :
    counting ep lib results t =
      (oks results).take (max 1 (ep.fastPathQuorum - t.preAccepted)) := by
  induction results generalizing t with
  | nil => rw [counting, oks, List.filterMap_nil, List.filter_nil, List.take_nil]
  | cons result results ih =>
    cases result with
    | none => exact ih hrun
    | some resp =>
      rw [preAccepting] at hrun
      rw [counting]
      split_ifs at hrun ⊢ with hok
      · have hoks : oks (some resp :: results) = resp :: oks results :=
          List.filter_cons_of_pos hok
        cases ht : t.count lib resp with
        | none =>
          rw [ht] at hrun
          exact absurd rfl hrun
        | some t' =>
          have hvotes := count_preAccepted ht
          rw [ht, Option.bind_some] at hrun
          dsimp only
          split_ifs at hrun ⊢ with hstop
          · have hone : max 1 (ep.fastPathQuorum - t.preAccepted) = 1 := by omega
            rw [hoks, hone, List.take_succ_cons, List.take_zero]
          · have hmore : max 1 (ep.fastPathQuorum - t.preAccepted) =
                max 1 (ep.fastPathQuorum - t'.preAccepted) + 1 := by omega
            rw [hoks, hmore, List.take_succ_cons, ih hrun]
      · have hoks : oks (some resp :: results) = oks results := List.filter_cons_of_neg hok
        rw [hoks]
        exact ih hrun

/-- Replies with the proposed dependencies make no comparison panic. -/
theorem preAccepting_same (hdeps : lib.sortInstanceIds deps = some t.ins.Deps)
    (hsame : ∀ resp ∈ (oks results).take (max 1 (ep.fastPathQuorum - t.preAccepted)),
      SameDeps lib deps resp) : preAccepting ep lib results t ≠ none := by
  induction results generalizing t with
  | nil => exact Option.some_ne_none _
  | cons result results ih =>
    cases result with
    | none => exact ih hdeps hsame
    | some resp =>
      rw [preAccepting]
      split_ifs with hok
      · have hoks : oks (some resp :: results) = resp :: oks results :=
          List.filter_cons_of_pos hok
        have hmax : max 1 (ep.fastPathQuorum - t.preAccepted) =
            max 1 (ep.fastPathQuorum - t.preAccepted) - 1 + 1 := by omega
        rw [hoks, hmax, List.take_succ_cons, List.forall_mem_cons] at hsame
        rw [hsame.1.count hdeps, Option.bind_some]
        split_ifs with hstop
        · exact Option.some_ne_none _
        · dsimp only at hstop
          have hnext : max 1 (ep.fastPathQuorum - (t.preAccepted + 1)) =
              max 1 (ep.fastPathQuorum - t.preAccepted) - 1 := by omega
          refine ih hdeps ?_
          dsimp only
          rw [hnext]
          exact hsame.2
      · have hoks : oks (some resp :: results) = oks results := List.filter_cons_of_neg hok
        rw [hoks] at hsame
        obtain ⟨m, hm⟩ := t.ins.alike_denied resp.Ballot
        refine ih ?_ hsame
        rw [hm]
        exact hdeps

/-- A fast path that fewer than a majority have taken: with two peers and no reply, or with four
or six peers and the same dependencies in the first reply or in the first two. -/
def Minority (ep : Epaxos) (lib : Litu) (ins : Instance)
    (results : List (Option PreAcceptResp)) : Prop :=
  lib.sortInstanceIds ins.Deps ≠ none ∧
    (ep.peers = 2 ∧ oks results = [] ∨ ep.peers = 4 ∧ first 1 ∨ ep.peers = 6 ∧ first 2)
where
  first (n : Nat) : Prop := n ≤ (oks results).length ∧
    ∀ resp ∈ (oks results).take n, SameDeps lib ins.Deps resp

theorem counted_same (hle : ep.fastPathQuorum ≤ ep.majorityQuorum)
    (hsort : lib.sortInstanceIds ins.Deps ≠ none)
    (hsame : ∀ resp ∈ (oks results).take (max 1 (ep.fastPathQuorum - 1)),
      SameDeps lib ins.Deps resp) :
    (preAccepted ep lib ins results).isSome ∧
      counted ep lib ins results = (oks results).take (max 1 (ep.fastPathQuorum - 1)) := by
  obtain ⟨c, hc⟩ := Option.ne_none_iff_exists'.1 hsort
  have hstart : PreAccepting.start lib ins =
      some ⟨{ ins with Deps := c }, c, ins.Seq, false, 1⟩ := by
    rw [PreAccepting.start, hc]
    rfl
  have hrun := preAccepting_same (t := ⟨{ ins with Deps := c }, c, ins.Seq, false, 1⟩) hc hsame
  constructor
  · obtain ⟨t, ht⟩ := Option.ne_none_iff_exists'.1 hrun
    rw [preAccepted_eq_some.2 ⟨_, t, hstart, ht, rfl⟩]
    rfl
  · rw [counted, hstart]
    exact counting_take hle hrun

theorem counted_take (hle : ep.fastPathQuorum ≤ ep.majorityQuorum)
    (h : (preAccepted ep lib ins results).isSome) :
    counted ep lib ins results = (oks results).take (max 1 (ep.fastPathQuorum - 1)) := by
  obtain ⟨next, hnext⟩ := Option.isSome_iff_exists.1 h
  obtain ⟨t₀, t, h₀, ht, -⟩ := preAccepted_eq_some.1 hnext
  have hone : t₀.preAccepted = 1 := by
    obtain ⟨deps, -, rfl⟩ := Option.map_eq_some_iff.1 h₀
    rfl
  have hrun : preAccepting ep lib results t₀ ≠ none := by
    rw [ht]
    exact nofun
  rw [counted, h₀]
  dsimp only
  rw [counting_take hle hrun, hone]

/-- `phase1` goes on only with the votes of a majority if and only if the fast path does not take
fewer. -/
theorem majority_iff (ep : Epaxos) (lib : Litu) (ins : Instance)
    (results : List (Option PreAcceptResp))
    (hn : 1 ≤ ep.peers) :
    ((preAccepted ep lib ins results).bind Next.ins ≠ none →
        ep.majorityQuorum ≤ (counted ep lib ins results).length + 1) ↔
      ¬ Minority ep lib ins results := by
  rw [preAccepted_goes]
  have hfast : ep.fastPathQuorum =
      ep.peers - ep.majorityQuorum + (ep.peers - ep.majorityQuorum + 1) / 2 := rfl
  have hmaj : ep.majorityQuorum = ep.peers / 2 + 1 := rfl
  constructor
  · rintro h ⟨hsort, hsmall⟩
    -- the fast path needs so many replies, and takes them
    have hless (m : Nat) (hm : max 1 (ep.fastPathQuorum - 1) = m)
        (hlt : m + 1 < ep.majorityQuorum ∨ oks results = [] ∧ 1 < ep.majorityQuorum)
        (hle : ep.fastPathQuorum ≤ ((oks results).take m).length + 1)
        (hsame : ∀ resp ∈ (oks results).take m, SameDeps lib ins.Deps resp) : False := by
      subst hm
      obtain ⟨hsome, hcounted⟩ := counted_same (by omega) hsort hsame
      rw [hcounted] at h
      have hmajority := h ⟨hsome, .inl ⟨hle, hsame⟩⟩
      rcases hlt with hlt | ⟨hnil, hlt⟩
      · rw [List.length_take] at hmajority
        omega
      · rw [hnil, List.take_nil, List.length_nil] at hmajority
        omega
    rcases hsmall with ⟨h2, hnone⟩ | ⟨h4, hlen, hsame⟩ | ⟨h6, hlen, hsame⟩
    · apply hless 1 (by omega) (.inr ⟨hnone, by omega⟩) (by omega)
      rw [hnone]
      exact nofun
    · refine hless 1 (by omega) (.inl (by omega)) ?_ hsame
      rw [List.length_take]
      omega
    · refine hless 2 (by omega) (.inl (by omega)) ?_ hsame
      rw [List.length_take]
      omega
  · rintro h ⟨hsome, hgoes⟩
    by_contra hless
    have hcount := hgoes.resolve_right hless
    apply h
    have htake := counted_take (by omega) hsome
    rw [htake, List.length_take] at hless hcount
    have hsort : lib.sortInstanceIds ins.Deps ≠ none := by
      intro hnone
      rw [preAccepted, PreAccepting.start, hnone] at hsome
      cases hsome
    refine ⟨hsort, ?_⟩
    have hpeers : ep.peers = 2 ∨ ep.peers = 4 ∨ ep.peers = 6 := by omega
    rcases hpeers with h2 | h4 | h6
    · refine .inl ⟨h2, List.length_eq_zero_iff.1 ?_⟩
      omega
    · have hm : max 1 (ep.fastPathQuorum - 1) = 1 := by omega
      rw [hm] at hcount
      refine .inr (.inl ⟨h4, ?_, hcount.2⟩)
      omega
    · have hm : max 1 (ep.fastPathQuorum - 1) = 2 := by omega
      rw [hm] at hcount
      refine .inr (.inr ⟨h6, ?_, hcount.2⟩)
      omega

/-- The loop of `phase1` has merged the dependencies of the instance and of the replies
counted. -/
structure Merges (lib : Litu) (ins : Instance) (t : PreAccepting)
    (l : List PreAcceptResp) : Prop where
  sorted : lib.sortInstanceIds ins.Deps = some t.ins.Deps
  own : ∀ w ∈ ins.Deps, w ∈ t.mergedDeps
  replies : ∀ resp ∈ l, ∀ w ∈ resp.Deps, w ∈ t.mergedDeps

theorem Merges.count (hunion : lib.Unites) (h : Merges lib ins t l)
    (ht : t.count lib resp = some t') : Merges lib ins t' (l ++ [resp]) := by
  obtain ⟨hs, rfl⟩ | ⟨-, c, mergedDeps, hc, hmerged, rfl⟩ := count_cases h.sorted ht
  · refine ⟨h.sorted, h.own, List.forall_mem_append.2 ⟨h.replies, ?_⟩⟩
    rw [List.forall_mem_singleton]
    intro w hw
    exact h.own w ((hs.mem_iff w).1 hw)
  · have hmem := hunion _ _ _ hmerged
    refine ⟨h.sorted, fun w hw => (hmem w).2 (.inl (h.own w hw)),
      List.forall_mem_append.2 ⟨?_, ?_⟩⟩
    · intro old hold w hw
      exact (hmem w).2 (.inl (h.replies old hold w hw))
    · rw [List.forall_mem_singleton]
      intro w hw
      exact (hmem w).2 (.inr ((sortInstanceIds_perm hc).mem_iff.2 hw))

theorem merges (hunion : lib.Unites) {t₀ : PreAccepting}
    (h₀ : PreAccepting.start lib ins = some t₀)
    (h : preAccepting ep lib results t₀ = some t) :
    Merges lib ins t (counted ep lib ins results) := by
  have hstart : Merges lib ins t₀ [] := by
    obtain ⟨deps, hdeps, rfl⟩ := Option.map_eq_some_iff.1 h₀
    exact ⟨hdeps, fun w hw => (sortInstanceIds_perm hdeps).mem_iff.2 hw, nofun⟩
  rw [counted, h₀]
  refine preAccepting_counting (P := Merges lib ins) ?_ (fun _ _ _ _ ht h =>
    h.count hunion ht) h hstart
  intro t l ballot h
  obtain ⟨m, hm⟩ := t.ins.alike_denied ballot
  rw [hm]
  exact ⟨h.sorted, h.own, h.replies⟩

/-- The instance has what was proposed and all that the counted replies say. -/
structure Keeps (ins : Instance) (l : List PreAcceptResp) (new : Instance) : Prop where
  deps : ∀ w ∈ ins.Deps, w ∈ new.Deps
  replyDeps : ∀ resp ∈ l, ∀ w ∈ resp.Deps, w ∈ new.Deps
  seq : ins.Seq ≤ new.Seq
  replySeq : ∀ resp ∈ l, resp.Seq ≤ new.Seq

/-- The number of every counted reply with the same dependencies is at most the proposed one, or
that of a counted reply with other dependencies. -/
def Outnumbered (lib : Litu) (ins : Instance) (l : List PreAcceptResp) : Prop :=
  ∀ resp ∈ l, SameDeps lib ins.Deps resp → resp.Seq ≤ ins.Seq ∨
    ∃ other ∈ l, ¬ SameDeps lib ins.Deps other ∧ resp.Seq ≤ other.Seq

theorem outcome_seq (h : Counts lib ins t l) {seq : UInt64} : seq ≤ t.outcome.Seq ↔
    seq ≤ ins.Seq ∨ ∃ resp ∈ l, ¬ SameDeps lib ins.Deps resp ∧ seq ≤ resp.Seq := by
  rw [PreAccepting.outcome]
  split_ifs with hd
  · exact h.maxSeq seq
  · rw [h.seq]
    refine (or_iff_left ?_).symm
    rintro ⟨resp, hresp, hs, -⟩
    exact hd (h.isDiff.2 ⟨resp, hresp, hs⟩)

theorem outcome_deps (h : Counts lib ins t l) (hm : Merges lib ins t l) :
    (∀ w ∈ ins.Deps, w ∈ t.outcome.Deps) ∧ ∀ resp ∈ l, ∀ w ∈ resp.Deps, w ∈ t.outcome.Deps := by
  rw [PreAccepting.outcome]
  split_ifs with hd
  · exact ⟨hm.own, hm.replies⟩
  · have hmem (w : Option InstanceId) : w ∈ t.ins.Deps ↔ w ∈ ins.Deps :=
      (sortInstanceIds_perm h.deps).mem_iff
    refine ⟨fun w hw => (hmem w).2 hw, ?_⟩
    intro resp hresp w hw
    have hs : SameDeps lib ins.Deps resp := by
      by_contra hs
      exact hd (h.isDiff.2 ⟨resp, hresp, hs⟩)
    exact (hmem w).2 ((hs.mem_iff w).1 hw)

/-- The instance with which `phase1` goes on has all the attributes if and only if no number of a
counted reply is lost with the comparison of the dependencies alone. -/
theorem keeps_iff (ep : Epaxos) (lib : Litu) (ins new : Instance)
    (results : List (Option PreAcceptResp)) (hunion : lib.Unites)
    (h : (preAccepted ep lib ins results).bind Next.ins = some new) :
    Keeps ins (counted ep lib ins results) new ↔
      Outnumbered lib ins (counted ep lib ins results) := by
  obtain ⟨next, hnext, hnew⟩ := Option.bind_eq_some_iff.1 h
  obtain ⟨t₀, t, h₀, ht, rfl⟩ := preAccepted_eq_some.1 hnext
  have hc := counts h₀ ht
  rw [next_ins hnew]
  constructor
  · intro hk resp hresp _
    exact (outcome_seq hc).1 (hk.replySeq resp hresp)
  · intro hout
    obtain ⟨hins, hreplies⟩ := outcome_deps hc (merges hunion h₀ ht)
    refine ⟨hins, hreplies, (outcome_seq hc).2 (.inl (UInt64.le_refl _)), ?_⟩
    intro resp hresp
    rw [outcome_seq hc]
    by_cases hs : SameDeps lib ins.Deps resp
    · exact hout resp hresp hs
    · exact .inr ⟨resp, hresp, hs, UInt64.le_refl _⟩

theorem mem_insertSorted {x w : Option InstanceId} {l l' : List (Option InstanceId)}
    (h : insertSorted cmpPtr x l = some l') : w ∈ l' ↔ w = x ∨ w ∈ l := by
  induction l generalizing l' with
  | nil =>
    cases h
    rw [List.mem_cons]
  | cons y l ih =>
    obtain ⟨c, hc, h⟩ := Option.bind_eq_some_iff.1 h
    split_ifs at h with hlt heq
    · cases h
      rw [List.mem_cons]
    · cases h
      obtain ⟨i, j, hi, hj, hij⟩ := Option.map₂_eq_some_iff.1 hc
      rw [heq, cmpInstanceId_eq_zero] at hij
      have hxy : x = y := by rw [hi, hj, hij]
      rw [hxy, List.mem_cons, or_self_left]
    · obtain ⟨l₁, hl₁, rfl⟩ := Option.map_eq_some_iff.1 h
      rw [List.mem_cons, ih hl₁, List.mem_cons, or_left_comm]

theorem plain_unites : Litu.plain.Unites := by
  intro a b c h w
  change b.foldrM (insertSorted cmpPtr) a = some c at h
  induction b generalizing c with
  | nil =>
    cases h
    rw [or_iff_left List.not_mem_nil]
  | cons x b ih =>
    rw [List.foldrM_cons] at h
    obtain ⟨c₁, hc₁, h⟩ := Option.bind_eq_some_iff.1 h
    rw [mem_insertSorted h, ih c₁ hc₁, List.mem_cons, or_left_comm]

end

def proposal : Instance :=
  ⟨⟨0, 1⟩, ⟨1, 0, 0⟩, ⟨1, 0, 0⟩, .preAccepted, ⟨.w, [1], some [2]⟩, 2, [some ⟨1, 1⟩]⟩

def reply (seq : UInt64) : PreAcceptResp :=
  ⟨true, proposal.Ballot, some proposal.Y, seq, proposal.Deps, some proposal.I⟩

theorem majority_iff_three :
    ((preAccepted ⟨0, 1, 3⟩ .plain proposal [some (reply 2), none]).bind Next.ins ≠ none →
        2 ≤ (counted ⟨0, 1, 3⟩ .plain proposal [some (reply 2), none]).length + 1) ↔
      ¬ Minority ⟨0, 1, 3⟩ .plain proposal [some (reply 2), none] :=
  majority_iff ⟨0, 1, 3⟩ .plain proposal _ (by decide)

theorem minority_commits : ¬ ∀ (ep : Epaxos) (lib : Litu) (ins : Instance)
    (results : List (Option PreAcceptResp)), 1 ≤ ep.peers →
      (preAccepted ep lib ins results).bind Next.ins ≠ none →
      ep.majorityQuorum ≤ (counted ep lib ins results).length + 1 := by
  intro h
  have hle := h ⟨0, 1, 4⟩ .plain proposal [some (reply 2), none, none] (by decide) nofun
  revert hle
  decide

theorem keeps_iff_three : Keeps proposal [reply 2] { proposal with Seq := 2 } ↔
    Outnumbered .plain proposal [reply 2] :=
  keeps_iff ⟨0, 1, 3⟩ .plain proposal _ [some (reply 2), none] plain_unites rfl

theorem seq_lost : ¬ ∀ (ep : Epaxos) (lib : Litu) (ins new : Instance)
    (results : List (Option PreAcceptResp)), lib.Unites →
      (preAccepted ep lib ins results).bind Next.ins = some new →
      Keeps ins (counted ep lib ins results) new := by
  intro h
  have hk := h ⟨0, 1, 3⟩ .plain proposal proposal [some (reply 3), none] plain_unites rfl
  have hle := hk.replySeq (reply 3) List.mem_cons_self
  revert hle
  decide

end Misc.Epaxos
