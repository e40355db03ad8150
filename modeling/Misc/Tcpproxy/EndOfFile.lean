import Misc.Tcpproxy.Forwarding

namespace Misc.Tcpproxy
open Misc.Lib
set_option autoImplicit true

section
variable {maxSize : Nat} {buf buf' : PipeBuf} {io : Splices}

/-- `splice_in` recognises the end of file only in front of an empty pipe, and the pipe is empty
after it only if it was and nothing has come in. -/
theorem spliceIn_eof {ins : List (SysResult (List UInt8))} {eof : SysResult Bool}
    (h : buf.spliceIn maxSize ins = some (eof, buf', [])) :
    (.ok [] ∈ ins → eof = .ok buf'.isEmpty) ∧
      (buf'.buffered = 0 ↔ buf.buffered = 0 ∧ ∀ data, .ok data ∈ ins → data = []) := by
  induction ins generalizing buf with
  | nil =>
    rw [PipeBuf.spliceIn] at h
    split_ifs at h
    cases h
    exact ⟨by simp, (and_iff_left (by simp)).symm⟩
  | cons r ins ih =>
    rw [PipeBuf.spliceIn.eq_def] at h
    dsimp only at h
    split_ifs at h
    · cases r with
      | error e =>
        cases h
        refine ⟨fun hmem => ?_, (and_iff_left fun data hmem => ?_).symm⟩
        all_goals cases List.mem_singleton.1 hmem
      | ok data =>
        dsimp only at h
        split_ifs at h with hbig hdata
        · cases h
          refine ⟨fun _ => rfl, (and_iff_left fun data' hmem => ?_).symm⟩
          cases List.mem_singleton.1 hmem
          exact hdata
        · obtain ⟨heof, hempty⟩ := ih h
          have hpos : 0 < data.length := List.length_pos_iff.2 hdata
          constructor
          · intro hmem
            rcases List.mem_cons.1 hmem with hhead | hmem
            · cases hhead
              exact absurd rfl hdata
            · exact heof hmem
          · refine hempty.trans (iff_of_false (fun hno => ?_) fun hno => ?_)
            · have hfill : buf.buffered + data.length = 0 := hno.1
              omega
            · exact hdata (hno.2 data List.mem_cons_self)
    · cases h

theorem spliceOut_drained {outs : List (SysResult Nat)} {r : SysResult Unit}
    (h : buf.spliceOut outs = some (r, buf', [])) :
    buf'.buffered = 0 ∧ r = .ok () ↔ ∀ e, .error e ∉ outs := by
  induction outs generalizing buf with
  | nil =>
    rw [PipeBuf.spliceOut] at h
    split_ifs at h with hpos
    cases h
    exact iff_of_true ⟨Nat.eq_zero_of_not_pos hpos, rfl⟩ (by simp)
  | cons r' outs ih =>
    rw [PipeBuf.spliceOut.eq_def] at h
    dsimp only at h
    split_ifs at h with hpos
    · cases r' with
      | error e =>
        cases h
        refine iff_of_false (fun hdone => ?_) fun hno => hno e List.mem_cons_self
        exact absurd hdone.1 (Nat.ne_of_gt hpos)
      | ok n =>
        dsimp only at h
        split_ifs at h
        refine (ih h).trans (forall_congr' fun e => not_congr ?_)
        rw [List.mem_cons, or_iff_right (by simp)]
    · cases h

end

namespace Context

/-- A call that has read the end of file and leaves the pipe empty says so, unless it fails. -/
def Reports (io : Splices) (r : SysResult Unit) (buf' : PipeBuf) : Prop :=
  .ok [] ∈ io.ins → buf'.isEmpty → r = .ok () ∨ r = .error 0 → r = .error 0

/-- The end of file is read behind bytes that are still in the pipe, and `splice_out` takes them
all. -/
def Overlooked (buf : PipeBuf) (io : Splices) : Prop :=
  .ok [] ∈ io.ins ∧ (buf.buffered = 0 → ∃ data, .ok data ∈ io.ins ∧ data ≠ []) ∧
    ∀ e, .error e ∉ io.outs

variable {maxSize : Nat} {buf buf' : PipeBuf} {io : Splices} {r : SysResult Unit}

/-- A call that has read the end of file finds the pipe empty and reports it, or passes on what
is in the pipe and returns as `splice_out` does. -/
theorem copy_eof (h : copy maxSize buf io = some (r, buf')) (hmem : .ok [] ∈ io.ins) :
    ∃ buf₁ : PipeBuf,
      (buf₁.buffered = 0 ↔ buf.buffered = 0 ∧ ∀ data, .ok data ∈ io.ins → data = []) ∧
      (buf₁.buffered = 0 ∧ r = .error 0 ∨
        buf₁.buffered ≠ 0 ∧ buf₁.spliceOut io.outs = some (r, buf', [])) := by
  obtain ⟨⟨eof, buf₁⟩, hin, h⟩ := Option.bind_eq_some_iff.1 h
  obtain ⟨heof, hempty⟩ := spliceIn_eof (taken_eq hin)
  have heof := heof hmem
  subst heof
  obtain ⟨⟨r₂, buf₂⟩, htaken, h⟩ := Option.map_eq_some_iff.1 h
  have htaken := taken_eq htaken
  refine ⟨buf₁, hempty, ?_⟩
  by_cases hb : buf₁.buffered = 0
  · have hyes : buf₁.isEmpty = true := decide_eq_true hb
    rw [hyes, if_pos rfl] at htaken
    injection htaken with htaken
    injection htaken with hr htaken
    injection htaken with hbuf houts
    subst hr
    subst hbuf
    dsimp only at h
    rw [hyes, Bool.true_and, if_pos rfl] at h
    cases h
    exact Or.inl ⟨hb, rfl⟩
  · have hno : buf₁.isEmpty = false := decide_eq_false hb
    rw [hno, if_neg Bool.false_ne_true] at htaken
    refine Or.inr ⟨hb, ?_⟩
    cases r₂ with
    | error e =>
      cases h
      exact htaken
    | ok u =>
      dsimp only at h
      rw [hno, Bool.false_and, if_neg Bool.false_ne_true] at h
      cases h
      exact htaken

/-- The end of file is reported if and only if it does not overtake bytes that are then taken. -/
theorem reports_iff (h : copy maxSize buf io = some (r, buf')) :
    Reports io r buf' ↔ ¬ Overlooked buf io := by
  by_cases hmem : .ok [] ∈ io.ins
  swap
  · exact iff_of_true (fun hread => absurd hread hmem) fun hover => hmem hover.1
  obtain ⟨buf₁, hempty, ⟨hb, rfl⟩ | ⟨hb, hout⟩⟩ := copy_eof h hmem
  · apply iff_of_true (fun _ _ _ => rfl)
    rintro ⟨-, hdata, -⟩
    obtain ⟨hzero, hall⟩ := hempty.1 hb
    obtain ⟨data, hdata, hne⟩ := hdata hzero
    exact hne (hall data hdata)
  · have hbytes : buf.buffered = 0 → ∃ data, .ok data ∈ io.ins ∧ data ≠ [] := by
      intro hzero
      by_contra hnone
      refine hb (hempty.2 ⟨hzero, fun data hdata => ?_⟩)
      by_contra hne
      exact hnone ⟨data, hdata, hne⟩
    have hover : Overlooked buf io ↔ buf'.buffered = 0 ∧ r = .ok () := by
      rw [spliceOut_drained hout]
      exact ⟨fun hover => hover.2.2, fun hall => ⟨hmem, hbytes, hall⟩⟩
    rw [hover]
    constructor
    · rintro hrep ⟨hzero, rfl⟩
      exact absurd (hrep hmem (decide_eq_true hzero) (Or.inl rfl)) nofun
    · rintro hnot - hzero (rfl | rfl)
      · exact absurd ⟨of_decide_eq_true hzero, rfl⟩ hnot
      · rfl

theorem reports_iff_alone : Reports ⟨[.ok []], []⟩ (.error 0) .new ↔
      ¬ Overlooked .new ⟨[.ok []], []⟩ :=
  @reports_iff 65536 .new .new ⟨[.ok []], []⟩ (.error 0) rfl

/-- A byte and then the end of file are read, and the byte is written. -/
theorem eof_overlooked :
    ¬ ∀ (maxSize : Nat) (buf buf' : PipeBuf) (io : Splices) (r : SysResult Unit),
    copy maxSize buf io = some (r, buf') → Reports io r buf' := by
  intro h
  have hrep := h 65536 .new ⟨0, [], [1], [1]⟩ ⟨[.ok [1], .ok []], [.ok 1]⟩ (.ok ()) rfl
  cases hrep (List.mem_cons_of_mem _ List.mem_cons_self) rfl (Or.inl rfl)

end Context

end Misc.Tcpproxy
