import Mathlib.Data.List.Induction
import Misc.LibDotJson.Refusal

namespace Misc.LibDotJson
set_option autoImplicit true

variable {F : Type}

theorem JObject.get_ofMembers (ms : List (Str × JNode F)) (key : Str) :
    get (ofMembers ms) key = (ms.reverse.find? fun m => m.1 = key).map Prod.snd := by
  induction ms using List.reverseRecOn with
  | nil => rfl
  | append_singleton ms m ih =>
    rw [ofMembers, List.foldl_append, List.foldl_cons, List.foldl_nil, get_set,
      List.reverse_append, List.reverse_singleton, List.singleton_append, List.find?_cons]
    by_cases h : m.1 = key
    · simp [h]
    · rw [ofMembers] at ih
      simpa [h] using ih

theorem numberEnd_space (hv : Space v) (hc : NumberEnd (c :: q)) : NumberEnd (v ++ c :: q) := by
  cases v with
  | nil => exact hc
  | cons d v =>
    have hd := hv d List.mem_cons_self
    have hne (e : UInt16) (he : isWhiteSpace e = false) : d ≠ e := by
      rintro rfl
      exact Bool.false_ne_true (he.symm.trans hd)
    refine ⟨hne _ (by decide), not_or.2 ⟨hne _ (by decide), hne _ (by decide)⟩, ?_⟩
    rw [← Bool.not_eq_true]
    intro hdigit
    exact Bool.false_ne_true ((isWhiteSpace_of_digit hdigit).symm.trans hd)

theorem numberEnd_of_mem (hc : c ∈ [ch ',', ch ']', ch '}']) (q : Str) : NumberEnd (c :: q) := by
  have hall : ∀ c ∈ [ch ',', ch ']', ch '}'],
      c ≠ ch '.' ∧ ¬ (c = ch 'E' ∨ c = ch 'e') ∧ isDigit c = false :=
    forall_mem_of_all (by decide)
  exact hall c hc

section

variable [Single F]

theorem ReadsIn.spaces {frame frame' : Frame F} (hu : Space u)
    (h : ReadsIn frame step t frame' r) : ReadsIn frame step (u ++ t) frame' r := by
  induction u with
  | nil => exact h
  | cons c u ih =>
    exact .space (hu c List.mem_cons_self) (ih fun d hd => hu d (List.mem_cons_of_mem _ hd))

theorem ReadsIn.element {x : JNode F} (hu : Space u) (hx : ∀ q, NumberEnd q → Reads (b ++ q) x q)
    (hv : Space v) (hc : c ∈ [ch ',', ch ']', ch '}']) (hstep : step = 0 ∨ step = 1)
    (h : ReadsIn (.array (xs ++ [x])) 2 (c :: t) frame r) :
    ReadsIn (.array xs) step (u ++ (b ++ (v ++ c :: t))) frame r :=
  have hx := hx _ (numberEnd_space hv (numberEnd_of_mem hc t))
  .spaces hu (.value hx (if_pos hstep) (.spaces hv h))

theorem ReadsIn.member {x : JNode F} (hu : Space u) (hk : IsString k s) (hw : Space w)
    (hy : Space y) (hx : ∀ q, NumberEnd q → Reads (b ++ q) x q) (hv : Space v)
    (hc : c ∈ [ch ',', ch ']', ch '}']) (hstep : step = 0 ∨ step = 1)
    (h : ReadsIn (.object s (JObject.set ps s x)) 4 (c :: t) frame r) :
    ReadsIn (.object key ps) step (u ++ (k ++ (w ++ ch ':' :: (y ++ (b ++ (v ++ c :: t))))))
      frame r :=
  have hx := hx _ (numberEnd_space hv (numberEnd_of_mem hc t))
  .spaces hu (.value (.string hk) (if_pos hstep) (.spaces hw
    (.separator List.mem_cons_self (.spaces hy (.value hx rfl (.spaces hv h))))))

mutual

theorem IsValue.reads {x : JNode F} : IsValue b x → ∀ q, NumberEnd q → Reads (b ++ q) x q
  | .null hw, _, _ => .null hw
  | .false hw, _, _ => .false hw
  | .true hw, _, _ => .true hw
  | .number hx, q, hq => by
    obtain ⟨c, t, rfl, hc, hparse⟩ := hx.parse hq
    have hreads : Reads (c :: (t ++ q)) x ((c :: (t ++ q)).drop _) := .number hc hparse
    rwa [Int.toNat_natCast, ← List.cons_append, List.drop_left] at hreads
  | .string hs, _, _ => .string hs
  | .emptyArray hu, q, _ => by
    rw [List.cons_append, List.append_assoc]
    exact Reads.array (.spaces hu (.close (by simp [Frame.closing])))
  | .array h, q, _ => by
    rw [List.cons_append, List.append_assoc]
    exact Reads.array (h.reads [] 0 q (.inl rfl))
  | .emptyObject hu, q, _ => by
    rw [List.cons_append, List.append_assoc]
    exact Reads.object (.spaces hu (.close (by simp [Frame.closing])))
  | .object h, q, _ => by
    rw [List.cons_append, List.append_assoc]
    obtain ⟨key, hin⟩ := h.reads [] [] 0 q (.inl rfl)
    exact Reads.object hin

theorem IsElements.reads {xs : List (JNode F)} : IsElements b xs → ∀ ys step q,
    step = 0 ∨ step = 1 → ReadsIn (.array ys) step (b ++ ch ']' :: q) (.array (ys ++ xs)) q
  | .one hu hx hv, ys, step, q, hstep => by
    rw [List.append_assoc, List.append_assoc]
    exact .element hu hx.reads hv (by decide) hstep (.close (by simp [Frame.closing]))
  | .cons (x := x) hu hx hv h, ys, step, q, hstep => by
    have hrest := h.reads (ys ++ [x]) 1 q (.inr rfl)
    rw [List.append_assoc, List.singleton_append] at hrest
    rw [List.append_assoc, List.append_assoc, List.append_assoc]
    exact .element hu hx.reads hv (by decide) hstep (.separator List.mem_cons_self hrest)

theorem IsMembers.reads {ms : List (Str × JNode F)} : IsMembers b ms → ∀ key ps step q,
    step = 0 ∨ step = 1 → ∃ key', ReadsIn (.object key ps) step (b ++ ch '}' :: q)
      (.object key' (ms.foldl (fun pairs m => JObject.set pairs m.1 m.2) ps)) q
  | .one hu hk hw hy hx hv, key, ps, step, q, hstep => by
    simp only [List.append_assoc, List.cons_append]
    refine ⟨_, .member hu hk hw hy hx.reads hv (by decide) hstep (.close ?_)⟩
    simp [Frame.closing]
  | .cons (s := s) (x := x) hu hk hw hy hx hv h, key, ps, step, q, hstep => by
    obtain ⟨key', hrest⟩ := h.reads s (JObject.set ps s x) 1 q (.inr rfl)
    simp only [List.append_assoc, List.cons_append]
    refine ⟨key', .member hu hk hw hy hx.reads hv (by decide) hstep (.separator ?_ hrest)⟩
    exact List.mem_cons_of_mem _ List.mem_cons_self

end

theorem IsValue.parse {x : JNode F} (hb : IsValue b x) (hv : Space v) :
    ∃ n : Nat, parseNode (b ++ v) = .ok (n + 1, some x) := by
  have hend : NumberEnd v := by
    have h := numberEnd_space (q := []) hv (numberEnd_of_mem (c := ch ',') (by decide) [])
    cases v with
    | nil => trivial
    | cons d v => exact h
  obtain ⟨c, w, _, hparse⟩ := (hb.reads v hend).parse
  exact ⟨w.length, hparse⟩

/-- A text is read if no white space stands before its value. -/
theorem IsText.parse {x : JNode F} (h : IsText json x) :
    (∃ b v, IsValue b x ∧ Space v ∧ json = b ++ v ∧ ∃ n : Nat,
      parseNode json = .ok (n + 1, some x)) ∨
    ∃ c t, json = c :: t ∧ isWhiteSpace c = true := by
  obtain ⟨u, b, v, hu, hb, hv, rfl⟩ := h
  cases u with
  | nil => exact .inl ⟨b, v, hb, hv, rfl, hb.parse hv⟩
  | cons c u => exact .inr ⟨c, _, rfl, hu c List.mem_cons_self⟩

theorem parseNode_front (hc : isWhiteSpace c = true)
    (h : parseNode (F := F) (c :: t) = .ok (n, node)) : 0 < n ∧ node = none := by
  rw [parseNode_space hc] at h
  cases hn : spaces t with
  | error _ =>
    rw [hn] at h
    cases h
  | ok k =>
    rw [hn] at h
    cases h
    exact ⟨Int.natCast_succ_pos k, rfl⟩

theorem not_isText_nil (x : JNode F) : ¬ IsText [] x := by
  intro h
  rcases h.parse with ⟨b, v, _, _, _, n, hparse⟩ | ⟨c, t, hnil, _⟩
  · rw [parseNode] at hparse
    cases hparse
  · cases hnil

theorem Refuses.not_isText (h : Refuses F json) (x : JNode F) : ¬ IsText json x := by
  intro hx
  have hparse := h.parse
  rcases hx.parse with ⟨b, v, _, _, _, n, hparse'⟩ | ⟨c, t, rfl, hc⟩
  · rw [hparse] at hparse'
    cases hparse'
  · exact absurd (parseNode_front hc hparse).1 (by decide)

theorem DotJson.Parse_eq (d : DotJson F) (h : json ≠ []) :
    d.Parse json = match parseNode json with
      | .error e => .error e
      | .ok (length, node) => .ok (length != -1, ⟨node⟩) := by
  have hlen : json.length ≠ 0 := fun hlen => h (List.length_eq_zero_iff.1 hlen)
  rewrite [DotJson.Parse, if_neg hlen]
  rfl

/-- `Parse` decides its language on the texts without white space in front of their value, on the
empty one and on those with a broken value at their front. -/
theorem parse_decides_iff (d : DotJson F) (json : Str) : Decides d json ↔
    (∃ (x : JNode F) (b v : Str), IsValue b x ∧ Space v ∧ json = b ++ v) ∨ json = [] ∨
      Refuses F json := by
  constructor
  · rintro ⟨result, d', hparse, hresult, hroot⟩
    by_cases hnil : json = []
    · exact .inr (.inl hnil)
    · rw [d.Parse_eq hnil] at hparse
      have hfound := parseNode_found (F := F) (s := json) fun frame t _ =>
        containerLoop_found t frame 0
      cases hnode : parseNode (F := F) json with
      | error e =>
        rw [hnode] at hparse
        cases hparse
      | ok r =>
        obtain ⟨n, node⟩ := r
        rw [hnode] at hparse hfound
        cases hparse
        by_cases hn : n = -1
        · subst hn
          cases node with
          | none =>
            rcases hfound with ⟨_, h⟩ | ⟨h, _⟩ | ⟨h, _⟩
            · exact .inr (.inr h)
            · exact absurd h (by decide)
            · exact absurd h (by decide)
          | some x =>
            obtain ⟨_, w, _, _, hw, _⟩ := hfound
            omega
        · -- the parser reports success, so the text is one and its tree is the root
          obtain ⟨x, hx⟩ := hresult.1 (by simpa using hn)
          rcases hx.parse with ⟨b, v, hb, hv, hjson, _⟩ | ⟨c, t, rfl, hc⟩
          · exact .inl ⟨x, b, v, hb, hv, hjson⟩
          · have hnone := (parseNode_front hc hnode).2
            have hsome : node = some x := hroot x hx
            rw [hnone] at hsome
            cases hsome
  · rintro (⟨x, b, v, hb, hv, hjson⟩ | rfl | h)
    · obtain ⟨n, hparse⟩ := hb.parse hv
      rw [← hjson] at hparse
      have hnil : json ≠ [] := by
        rintro rfl
        exact not_isText_nil x ⟨[], b, v, nofun, hb, hv, hjson⟩
      refine ⟨true, ⟨some x⟩, ?_,
        ⟨fun _ => ⟨x, [], b, v, nofun, hb, hv, hjson⟩, fun _ => rfl⟩, ?_⟩
      · rw [d.Parse_eq hnil, hparse]
        have hn : (n : Int) + 1 ≠ -1 := by omega
        simpa using hn
      · intro y hy
        rcases hy.parse with ⟨_, _, _, _, _, m, hparse'⟩ | ⟨c, t, rfl, hc⟩
        · rw [hparse] at hparse'
          cases hparse'
          rfl
        · cases (parseNode_front hc hparse).2
    · refine ⟨false, d, rfl, ?_, fun x hx => absurd hx (not_isText_nil x)⟩
      exact ⟨nofun, fun ⟨x, hx⟩ => absurd hx (not_isText_nil x)⟩
    · have hnil : json ≠ [] := by
        obtain ⟨c, t, rfl⟩ := h.cons
        exact List.cons_ne_nil c t
      refine ⟨false, ⟨none⟩, ?_, ?_, fun x hx => absurd hx (h.not_isText x)⟩
      · rw [d.Parse_eq hnil, h.parse]
        rfl
      · exact ⟨nofun, fun ⟨x, hx⟩ => absurd hx (h.not_isText x)⟩

end

/-- A library whose `Single.TryParse` reads nothing. -/
instance : Single Empty := ⟨fun _ => none, nofun⟩

/-- `Parse` reports success for the text `x`, and `Root` is null. -/
theorem not_decides_x : ¬ Decides (F := Empty) ⟨none⟩ [ch 'x'] := by
  rintro ⟨result, d', hparse, hresult, hroot⟩
  have hx : StartsNothing (ch 'x') := by
    have h : ch 'x' ∉ starters ∧ isWhiteSpace (ch 'x') = false ∧
        ¬ (isDigit (ch 'x') = true ∨ ch 'x' = ch '-') := by
      decide
    exact h
  rw [DotJson.Parse_eq _ (List.cons_ne_nil _ _), parseNode_nothing hx] at hparse
  cases hparse
  obtain ⟨x, hx⟩ := hresult.1 rfl
  cases hroot x hx

end Misc.LibDotJson
