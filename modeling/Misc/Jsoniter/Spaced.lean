import Misc.Jsoniter.Completeness

namespace Misc.Jsoniter
set_option autoImplicit true

/-! ## A text is read in one way -/

theorem Blank.cancel (hw : Blank w) (hw' : Blank w') (hr : Solid r) (hr' : Solid r')
    (heq : w ++ r = w' ++ r') : w = w' ∧ r = r' := by
  have hlead : w = w' := by rw [← takeWhile_blank hw hr, heq, takeWhile_blank hw' hr']
  subst hlead
  exact ⟨rfl, List.append_cancel_left heq⟩

theorem solid_cons (hc : iswhitespace c = false) (b : List UInt8) : Solid (c :: b) := by
  intro d hd
  cases hd
  exact hc

theorem value_solid (h : Value Lexeme v ts) (b : List UInt8) : Solid (v ++ b) := by
  obtain ⟨c, q, rfl, hc, -⟩ := value_first h
  exact solid_cons hc _

theorem member_solid (h : Member Lexeme m ts) (b : List UInt8) : Solid (m ++ b) := by
  obtain ⟨c, q, rfl, hc, -⟩ := Iter.member_first h
  exact solid_cons hc _

theorem value_head (h : Value Lexeme v ts) (hb : ∀ p, ts = [(.number, p)] → Stops b) :
    ts.head? = some (Iter.new (v ++ b)).readvalue.2 := by
  cases h with
  | scalar _ hp => rw [Iter.readvalue_scalar rfl hp fun hk => hb v (hk ▸ rfl)]; rfl
  | emptyArray | array => rw [Iter.readvalue_array rfl]; rfl
  | emptyObject | object => rw [Iter.readvalue_object rfl]; rfl

theorem key_unique (hk : Lexeme .string k) (hk' : Lexeme .string k') (heq : k ++ b = k' ++ b') :
    k = k' ∧ b = b' := by
  have hkey : Value Lexeme k [(.string, k)] := .scalar rfl hk
  have hkey' : Value Lexeme k' [(.string, k')] := .scalar rfl hk'
  have hhead := value_head (b := b) hkey nofun
  rw [heq, ← value_head hkey' nofun] at hhead
  cases hhead
  exact ⟨rfl, List.append_cancel_left heq⟩

theorem value_ne_close (h : Value Lexeme v ts) : ch ']' :: b ≠ v ++ b' := by
  obtain ⟨c, q, rfl, -, -, -, -, hc, -⟩ := value_first h
  intro heq
  exact hc (List.cons.inj heq).1.symm

theorem member_ne_close (h : Member Lexeme m ts) : ch '\x7d' :: b ≠ m ++ b' := by
  obtain ⟨c, q, rfl, -, -, -, -, -, hc⟩ := Iter.member_first h
  intro heq
  exact hc (List.cons.inj heq).1.symm

mutual

/-- Two values that begin the same bytes are one, numbers being read to their end. -/
theorem Value.unique (h : Value Lexeme v ts) (h' : Value Lexeme v' ts') (heq : v ++ b = v' ++ b')
    (hb : ∀ p, ts = [(.number, p)] → Stops b) (hb' : ∀ p, ts' = [(.number, p)] → Stops b') :
    v = v' ∧ b = b' := by
  have hhead : ts.head? = ts'.head? := by rw [value_head h hb, heq, ← value_head h' hb']
  match h with
  | .scalar hk hp =>
    cases h' with
    | scalar =>
      cases hhead
      exact ⟨rfl, List.append_cancel_left heq⟩
    | emptyArray | array | emptyObject | object =>
      cases hhead
      cases hk
  | .emptyArray hw =>
    cases h' with
    | scalar hk =>
      cases hhead
      cases hk
    | emptyArray hw' =>
      simp only [List.cons_append, List.append_assoc, List.cons.injEq, true_and] at heq
      obtain ⟨rfl, hrest⟩ := hw.cancel hw' (solid_cons rfl _) (solid_cons rfl _) heq
      exact ⟨rfl, (List.cons.inj hrest).2⟩
    | array hw' hv' =>
      simp only [List.cons_append, List.append_assoc, List.cons.injEq, true_and] at heq
      obtain ⟨-, hrest⟩ := hw.cancel hw' (solid_cons rfl _) (value_solid hv' _) heq
      exact absurd hrest (value_ne_close hv')
    | emptyObject | object => cases hhead
  | .array hw hv he =>
    cases h' with
    | scalar hk =>
      cases hhead
      cases hk
    | emptyArray hw' =>
      simp only [List.cons_append, List.append_assoc, List.cons.injEq, true_and] at heq
      obtain ⟨-, hrest⟩ := hw.cancel hw' (value_solid hv _) (solid_cons rfl _) heq
      exact absurd hrest.symm (value_ne_close hv)
    | array hw' hv' he' =>
      simp only [List.cons_append, List.append_assoc, List.cons.injEq, true_and] at heq
      obtain ⟨rfl, hrest⟩ := hw.cancel hw' (value_solid hv _) (value_solid hv' _) heq
      obtain ⟨rfl, htail⟩ := hv.unique hv' hrest (fun _ _ => arrayEnd_stops he _)
        fun _ _ => arrayEnd_stops he' _
      obtain ⟨rfl, rfl⟩ := he.unique he' htail
      exact ⟨rfl, rfl⟩
    | emptyObject | object => cases hhead
  | .emptyObject hw =>
    cases h' with
    | scalar hk =>
      cases hhead
      cases hk
    | emptyArray | array => cases hhead
    | emptyObject hw' =>
      simp only [List.cons_append, List.append_assoc, List.cons.injEq, true_and] at heq
      obtain ⟨rfl, hrest⟩ := hw.cancel hw' (solid_cons rfl _) (solid_cons rfl _) heq
      exact ⟨rfl, (List.cons.inj hrest).2⟩
    | object hw' hm' =>
      simp only [List.cons_append, List.append_assoc, List.cons.injEq, true_and] at heq
      obtain ⟨-, hrest⟩ := hw.cancel hw' (solid_cons rfl _) (member_solid hm' _) heq
      exact absurd hrest (member_ne_close hm')
  | .object hw hm he =>
    cases h' with
    | scalar hk =>
      cases hhead
      cases hk
    | emptyArray | array => cases hhead
    | emptyObject hw' =>
      simp only [List.cons_append, List.append_assoc, List.cons.injEq, true_and] at heq
      obtain ⟨-, hrest⟩ := hw.cancel hw' (member_solid hm _) (solid_cons rfl _) heq
      exact absurd hrest.symm (member_ne_close hm)
    | object hw' hm' he' =>
      simp only [List.cons_append, List.append_assoc, List.cons.injEq, true_and] at heq
      obtain ⟨rfl, hrest⟩ := hw.cancel hw' (member_solid hm _) (member_solid hm' _) heq
      obtain ⟨rfl, htail⟩ := hm.unique hm' hrest (objectEnd_stops he _) (objectEnd_stops he' _)
      obtain ⟨rfl, rfl⟩ := he.unique he' htail
      exact ⟨rfl, rfl⟩
termination_by structural h

theorem ArrayEnd.unique (h : ArrayEnd Lexeme e ts) (h' : ArrayEnd Lexeme e' ts')
    (heq : e ++ b = e' ++ b') : e = e' ∧ b = b' := by
  match h with
  | .close hw =>
    cases h' with
    | close hw' =>
      simp only [List.append_assoc] at heq
      obtain ⟨rfl, hrest⟩ := hw.cancel hw' (solid_cons rfl _) (solid_cons rfl _) heq
      exact ⟨rfl, (List.cons.inj hrest).2⟩
    | more hw' =>
      simp only [List.append_assoc] at heq
      obtain ⟨-, hrest⟩ := hw.cancel hw' (solid_cons rfl _) (solid_cons rfl _) heq
      exact absurd (List.cons.inj hrest).1 (by decide)
  | .more hw hsep hv he =>
    cases h' with
    | close hw' =>
      simp only [List.append_assoc] at heq
      obtain ⟨-, hrest⟩ := hw.cancel hw' (solid_cons rfl _) (solid_cons rfl _) heq
      exact absurd (List.cons.inj hrest).1 (by decide)
    | more hw' hsep' hv' he' =>
      simp only [List.append_assoc, List.cons_append] at heq
      obtain ⟨rfl, hrest⟩ := hw.cancel hw' (solid_cons rfl _) (solid_cons rfl _) heq
      obtain ⟨rfl, htail⟩ :=
        hsep.cancel hsep' (value_solid hv _) (value_solid hv' _) (List.cons.inj hrest).2
      obtain ⟨rfl, hend⟩ := hv.unique hv' htail (fun _ _ => arrayEnd_stops he _)
        fun _ _ => arrayEnd_stops he' _
      obtain ⟨rfl, rfl⟩ := he.unique he' hend
      exact ⟨rfl, rfl⟩
termination_by structural h

theorem Member.unique (h : Member Lexeme m ts) (h' : Member Lexeme m' ts')
    (heq : m ++ b = m' ++ b') (hb : Stops b) (hb' : Stops b') : m = m' ∧ b = b' := by
  match h with
  | .mk hk hw hsep hv =>
    cases h' with
    | mk hk' hw' hsep' hv' =>
      simp only [List.append_assoc, List.cons_append] at heq
      obtain ⟨rfl, hrest⟩ := key_unique hk hk' heq
      obtain ⟨rfl, htail⟩ := hw.cancel hw' (solid_cons rfl _) (solid_cons rfl _) hrest
      obtain ⟨rfl, hend⟩ :=
        hsep.cancel hsep' (value_solid hv _) (value_solid hv' _) (List.cons.inj htail).2
      obtain ⟨rfl, rfl⟩ := hv.unique hv' hend (fun _ _ => hb) fun _ _ => hb'
      exact ⟨rfl, rfl⟩
termination_by structural h

theorem ObjectEnd.unique (h : ObjectEnd Lexeme e ts) (h' : ObjectEnd Lexeme e' ts')
    (heq : e ++ b = e' ++ b') : e = e' ∧ b = b' := by
  match h with
  | .close hw =>
    cases h' with
    | close hw' =>
      simp only [List.append_assoc] at heq
      obtain ⟨rfl, hrest⟩ := hw.cancel hw' (solid_cons rfl _) (solid_cons rfl _) heq
      exact ⟨rfl, (List.cons.inj hrest).2⟩
    | more hw' =>
      simp only [List.append_assoc] at heq
      obtain ⟨-, hrest⟩ := hw.cancel hw' (solid_cons rfl _) (solid_cons rfl _) heq
      exact absurd (List.cons.inj hrest).1 (by decide)
  | .more hw hsep hm he =>
    cases h' with
    | close hw' =>
      simp only [List.append_assoc] at heq
      obtain ⟨-, hrest⟩ := hw.cancel hw' (solid_cons rfl _) (solid_cons rfl _) heq
      exact absurd (List.cons.inj hrest).1 (by decide)
    | more hw' hsep' hm' he' =>
      simp only [List.append_assoc, List.cons_append] at heq
      obtain ⟨rfl, hrest⟩ := hw.cancel hw' (solid_cons rfl _) (solid_cons rfl _) heq
      obtain ⟨rfl, htail⟩ :=
        hsep.cancel hsep' (member_solid hm _) (member_solid hm' _) (List.cons.inj hrest).2
      obtain ⟨rfl, hend⟩ := hm.unique hm' htail (objectEnd_stops he _) (objectEnd_stops he' _)
      obtain ⟨rfl, rfl⟩ := he.unique he' hend
      exact ⟨rfl, rfl⟩
termination_by structural h

end

/-! ## Whitespace between two values -/

/-- Whitespace comes first, or nothing is left. -/
def Parted (b : List UInt8) : Prop := ∀ c ∈ b.head?, iswhitespace c = true

/-- Complete values one after another, with at least one byte of whitespace between two of
them. -/
inductive Spaced : List UInt8 → Prop
  | nil : Blank w → Spaced w
  | cons : Blank w → Value Lexeme v ts → Parted b → Spaced b → Spaced (w ++ (v ++ b))

/-- Complete values one after another, one of which begins right behind another. -/
inductive Touching : List UInt8 → Prop
  | here : Blank w → Value Lexeme v ts → iswhitespace c = false →
      (∀ part, ts = [(.number, part)] → isdigit c = false) → Text Lexeme Apart (c :: b) us →
      Touching (w ++ (v ++ c :: b))
  | later : Blank w → Value Lexeme v ts →
      (∀ part, ts = [(.number, part)] → Apart b) → Touching b → Touching (w ++ (v ++ b))

theorem Parted.apart (h : Parted b) : Apart b := by
  intro c hc
  rcases iswhitespace_eq (h c hc) with rfl | rfl | rfl | rfl <;> rfl

theorem apart_cons (hc : isdigit c = false) (b : List UInt8) : Apart (c :: b) := by
  intro d hd
  cases hd
  exact hc

theorem Spaced.text (h : Spaced b) : ∃ ts, Text Lexeme Apart b ts := by
  induction h with
  | nil hw => exact ⟨_, .nil hw⟩
  | cons hw hv hb _ ih =>
    obtain ⟨us, ht⟩ := ih
    exact ⟨_, .cons hw hv (fun _ _ => hb.apart) ht⟩

theorem Touching.text (h : Touching b) : ∃ ts, Text Lexeme Apart b ts := by
  induction h with
  | here hw hv _ hfar ht => exact ⟨_, .cons hw hv (fun p hp => apart_cons (hfar p hp) _) ht⟩
  | later hw hv hfar _ ih =>
    obtain ⟨us, ht⟩ := ih
    exact ⟨_, .cons hw hv hfar ht⟩

theorem text_spaced_or_touching (h : Text Lexeme Apart b ts) : Spaced b ∨ Touching b := by
  induction h with
  | nil hw => exact .inl (.nil hw)
  | @cons w v _ b _ hw hv hfar ht ih =>
    rcases ih with hb | hb
    · by_cases hparted : Parted b
      · exact .inl (.cons hw hv hparted hb)
      · -- the byte that comes first begins the next value
        cases b with
        | nil => exact absurd nofun hparted
        | cons c b =>
          have hc : iswhitespace c = false := by
            rw [Bool.eq_false_iff]
            rintro hwhite
            exact hparted fun d hd => by cases hd; exact hwhite
          exact .inr (.here hw hv hc (fun p hp => hfar p hp c rfl) ht)
    · exact .inr (.later hw hv hfar hb)

theorem Spaced.not_touching (h : Spaced b) : ¬ Touching b := by
  induction h with
  | nil hw =>
    intro h
    cases h with
    | here _ hv =>
      obtain ⟨c, q, rfl, hc, -⟩ := value_first hv
      simp [hw c (by simp)] at hc
    | later _ hv =>
      obtain ⟨c, q, rfl, hc, -⟩ := value_first hv
      simp [hw c (by simp)] at hc
  | @cons w v ts b hw hv hb hs ih =>
    intro h
    obtain ⟨us, ht⟩ := hs.text
    generalize heq : w ++ (v ++ b) = data at h
    cases h with
    | here hw' hv' hc hfar ht' =>
      obtain ⟨-, heq⟩ := hw.cancel hw' (value_solid hv _) (value_solid hv' _) heq
      obtain ⟨-, rfl⟩ := hv.unique hv' heq (fun _ _ => text_stops ht hb.apart)
        fun p hp => text_stops ht' (apart_cons (hfar p hp) _)
      rw [hb _ rfl] at hc
      cases hc
    | later hw' hv' hfar h' =>
      obtain ⟨-, heq⟩ := hw.cancel hw' (value_solid hv _) (value_solid hv' _) heq
      obtain ⟨us', ht'⟩ := h'.text
      obtain ⟨-, rfl⟩ := hv.unique hv' heq (fun _ _ => text_stops ht hb.apart)
        fun p hp => text_stops ht' (hfar p hp)
      exact ih h'

end Misc.Jsoniter
