import Misc.Epaxos.Agreement

namespace Misc.Epaxos
open Misc.Lib
set_option autoImplicit true

def Move.request (r : UInt64) (mv : Move) : Option Command :=
  match mv.act with
  | .request _ y => if mv.r = r then some y else none
  | _ => none

/-- The commands that clients have asked `r` for, in their order. -/
def requests (as : List Move) (r : UInt64) : List Command := as.filterMap (Move.request r)

/-- The request for `y` has taken the number of the instance. -/
def Asked (as : List Move) (i : InstanceId) (y : Command) : Prop :=
  ∃ m : Nat, (requests as i.Rid)[m]? = some y ∧ i.Index = .ofNat (m + 1)

def Rooted (as : List Move) (i : InstanceId) (y : Command) : Prop := y = .nop ∨ Asked as i y

def Pc.work : Pc → Option Instance
  | .next n => n.ins
  | .preAccepting ins | .accepting ins => some ins
  | .idle | .interf _ _ | .preparing _ _ => none

/-- The command that a message brings for an instance. -/
def Msg.brings : Msg → Option (InstanceId × Command)
  | .preAccept _ req | .accept _ req | .commit _ req => some (req.I, req.Y)
  | .prepared _ _ req resp => resp.Cmd.map fun cmd => (req.I, cmd.Y)
  | .prepare _ _ | .preAccepted _ _ _ _ | .accepted _ _ _ _ => none

section
variable {as bs : List Move} {mv : Move} {i : InstanceId} {y : Command} {r : UInt64} {k : Nat}

theorem requests_append : requests (as ++ bs) r = requests as r ++ requests bs r :=
  List.filterMap_append

theorem request_of_ne (h : r ≠ mv.r) : mv.request r = none := by
  rw [Move.request]
  split
  · exact if_neg h.symm
  · rfl

theorem request_of_act (h : ∀ k y, mv.act ≠ .request k y) : mv.request r = none := by
  rw [Move.request]
  split
  · next k y ha => exact absurd ha (h k y)
  · rfl

theorem request_self (h : mv.act = .request k y) : mv.request mv.r = some y := by
  rw [Move.request, h]
  exact if_pos rfl

theorem requests_none (h : mv.request r = none) : requests (as ++ [mv]) r = requests as r := by
  rw [requests_append, requests, requests, List.filterMap_cons_none h]
  exact List.append_nil _

theorem requests_some (h : mv.request r = some y) :
    requests (as ++ [mv]) r = requests as r ++ [y] := by
  rw [requests_append, requests, requests, List.filterMap_cons_some h]
  rfl

theorem Asked.mono (h : Asked as i y) (bs : List Move) : Asked (as ++ bs) i y := by
  obtain ⟨m, hm, hi⟩ := h
  refine ⟨m, ?_, hi⟩
  rw [requests_append, List.getElem?_append_left (List.getElem?_eq_some_iff.1 hm).1, hm]

theorem Rooted.mono (h : Rooted as i y) (bs : List Move) : Rooted (as ++ bs) i y :=
  h.imp_right fun h => h.mono bs

/-- Different requests have different numbers as long as these do not wrap around. -/
theorem Asked.unique {y' : Command} (h : Asked as i y) (h' : Asked as i y')
    (hlen : (requests as i.Rid).length < UInt64.size) : y = y' := by
  obtain ⟨m, hm, hi⟩ := h
  obtain ⟨m', hm', hi'⟩ := h'
  have hlt := (List.getElem?_eq_some_iff.1 hm).1
  have hlt' := (List.getElem?_eq_some_iff.1 hm').1
  have heq := congrArg UInt64.toNat (hi.symm.trans hi')
  rw [UInt64.toNat_ofNat_of_lt' (by omega), UInt64.toNat_ofNat_of_lt' (by omega)] at heq
  obtain rfl : m = m' := by omega
  exact Option.some.inj (hm.symm.trans hm')

end

namespace Cluster

/-- Every command in the cluster is a no-op or has been asked for. -/
structure Valid (as : List Move) (c : Cluster) : Prop where
  number : ∀ r, (c.reps r).state.instanceIdx = .ofNat (requests as r).length
  table : ∀ r i ins, (c.reps r).state.cmds i = some ins → ins.I = i ∧ Rooted as i ins.Y
  begun : ∀ r k y idx, (c.reps r).calls k = .interf y idx → Asked as ⟨r, idx⟩ y
  calls : ∀ r k ins, ((c.reps r).calls k).work = some ins → Rooted as ins.I ins.Y
  soup : ∀ m ∈ c.soup, ∀ i y, m.brings = some (i, y) → Rooted as i y

section
variable {cfg : Config} {lib : Litu} {c c' : Cluster} {as : List Move} {mv : Move}
  {r : UInt64} {k : Nat}
  {i : InstanceId} {ins : Instance} {y : Command}

theorem Valid.stores (h : c.Valid as) (hrec : c.Receives cfg mv)
    (hst : (c.reps mv.r).Stores lib.toSlices mv.act ins) : Rooted as ins.I ins.Y := by
  generalize ha : mv.act = a at hst
  cases hst with
  | preAccept req _ hins =>
    rw [Receives, ha] at hrec
    obtain ⟨seq, deps, rfl⟩ := preAccepted_attrs hins
    exact h.soup _ hrec.2 _ _ rfl
  | accept req _ =>
    rw [Receives, ha] at hrec
    exact h.soup _ hrec.2 _ _ rfl
  | commit req =>
    rw [Receives, ha] at hrec
    exact h.soup _ hrec.2 _ _ rfl
  | phase1 k ins hk => exact h.calls mv.r k ins (by rw [hk]; rfl)
  | acceptPhase k ins hk => exact h.calls mv.r k ins (by rw [hk]; rfl)
  | commitPhase k ins hk => exact h.calls mv.r k ins (by rw [hk]; rfl)

theorem Valid.turn {pc : Pc} (h : c.Valid as) (hrec : c.Receives cfg mv)
    (ht : Replica.Turn (cfg.ep mv.r) lib (c.reps mv.r) k mv.act pc)
    (hwork : pc.work = some ins) : Rooted as ins.I ins.Y := by
  generalize ha : mv.act = a at ht
  cases ht with
  | request | recover | commit | stop => cases hwork
  | interf y idx hk =>
    cases hwork
    exact .inr (h.begun mv.r k y idx hk)
  | phase1 ins' hk =>
    cases hwork
    exact h.calls mv.r k ins (by rw [hk]; rfl)
  | accept ins' hk =>
    cases hwork
    exact h.calls mv.r k ins' (by rw [hk]; rfl)
  | preAccepts results ins' next hk hnext =>
    obtain ⟨hI, -, hY⟩ := preAccepted_ins hnext hwork
    rw [hI, hY]
    exact h.calls mv.r k ins' (by rw [hk]; rfl)
  | accepts results ins' hk =>
    have hins := h.calls mv.r k ins' (by rw [hk]; rfl)
    obtain hs | ⟨new, ⟨m, rfl⟩, hs⟩ :=
      accepted_cases (cfg.ep mv.r) ins' (results.map (Option.map Prod.snd))
    · rw [hs] at hwork
      cases hwork
    · rw [hs] at hwork
      cases hwork
      exact hins
  | prepares results i nextBallot n hk hp =>
    obtain rfl | ⟨resp, cmd, hresp, hcmd, hnext⟩ := prepared_cases hp
    · cases hwork
      exact .inl rfl
    · rw [List.map_map] at hresp
      obtain ⟨p, hp, hmap⟩ := List.mem_map.1 hresp
      obtain ⟨q, hq, rfl⟩ := Option.map_eq_some_iff.1 hmap
      obtain ⟨-, hm⟩ := (hrec.prepares ha hk).2.2 q
        (List.mem_filterMap.2 ⟨_, List.mem_map.2 ⟨p, hp, rfl⟩, hq⟩)
      have hroot := h.soup _ hm i cmd.Y (by rw [Msg.brings, hcmd]; rfl)
      obtain ⟨rfl, -⟩ | rfl | ⟨rfl, -⟩ := hnext <;> cases hwork <;> exact hroot

theorem Valid.sends {m : Msg} (h : c.Valid as) (hm : m ∈ c.sends cfg lib mv)
    (hb : m.brings = some (i, y)) : Rooted as i y := by
  cases Sends.of_mem hm with
  | preAccepted | accepted | prepare => cases hb
  | preAccept k ins _ hk =>
    cases hb
    exact h.calls mv.r k ins (by rw [hk]; rfl)
  | accept k ins _ hk =>
    cases hb
    exact h.calls mv.r k ins (by rw [hk]; rfl)
  | commit k ins _ hk =>
    cases hb
    exact h.calls mv.r k ins (by rw [hk]; rfl)
  | prepared req _ =>
    rw [Msg.brings, State.prepare, State.getCmd] at hb
    split at hb
    · next curr hcurr =>
      split_ifs at hb
      · cases hb
      · cases hb
        exact (h.table mv.r _ curr hcurr).2
    · cases hb
      exact .inl rfl

theorem Valid.number_step (h : c.Valid as) (hstep : step cfg lib c mv = some c') (r : UInt64) :
    (c'.reps r).state.instanceIdx = .ofNat (requests (as ++ [mv]) r).length := by
  obtain ⟨hr, heq⟩ | ⟨rfl, hrep⟩ := reps_step hstep r
  · rw [heq, h.number, requests_none (request_of_ne hr)]
  · by_cases ha : ∃ k y, mv.act = .request k y
    · obtain ⟨k, y, ha⟩ := ha
      rw [ha] at hrep
      rw [Replica.instanceIdx_request hrep, h.number,
        requests_some (request_self ha), List.length_append]
      exact (UInt64.ofNat_add ..).symm
    · have hsame := (Replica.instanceIdx_step hrep).resolve_right ha
      rw [hsame, h.number, requests_none]
      exact request_of_act fun k y he => ha ⟨k, y, he⟩

theorem Valid.begun_turn {idx : UInt64} (h : c.Valid as)
    (ht : Replica.Turn (cfg.ep mv.r) lib (c.reps mv.r) k mv.act (.interf y idx)) :
    Asked (as ++ [mv]) ⟨mv.r, idx⟩ y := by
  generalize ha : mv.act = a at ht
  cases ht with
  | request _ _ =>
    refine ⟨(requests as mv.r).length, ?_, ?_⟩
    · rw [requests_some (request_self ha), List.getElem?_concat_length]
    · rw [h.number]
      exact (UInt64.ofNat_add ..).symm

theorem Valid.step (h : c.Valid as) (hstep : step cfg lib c mv = some c') :
    c'.Valid (as ++ [mv]) := by
  obtain ⟨-, hrec, -⟩ := step_eq hstep
  refine ⟨fun r => h.number_step hstep r, fun r i ins hins => ?_, fun r k y idx hk =>
    ?_, fun r k ins hk => ?_, fun m hm i y hb => ?_⟩
  · obtain ⟨-, heq⟩ | ⟨rfl, hrep⟩ := reps_step hstep r
    · exact (h.table r i ins (heq ▸ hins)).imp_right fun h => h.mono [mv]
    · obtain ⟨new, hst, heq⟩ | ⟨-, heq⟩ := Replica.state_step hrep
      · rw [heq, Replica.storeCmd_cmds] at hins
        by_cases hi : i = new.I
        · subst hi
          rw [Function.update_self] at hins
          cases hins
          exact ⟨rfl, (h.stores hrec hst).mono [mv]⟩
        · rw [Function.update_of_ne hi] at hins
          exact (h.table mv.r i ins hins).imp_right fun h => h.mono [mv]
      · have hcmds : (c'.reps mv.r).state.cmds = (c.reps mv.r).state.cmds := by
          obtain heq | ⟨k, y, -, heq⟩ := heq
          · rw [heq]
          · rw [heq]
            rfl
        exact (h.table mv.r i ins (hcmds ▸ hins)).imp_right fun h => h.mono [mv]
  · obtain ⟨-, heq⟩ | ⟨rfl, hrep⟩ := reps_step hstep r
    · exact (h.begun r k y idx (heq ▸ hk)).mono [mv]
    · rcases Replica.calls_step hrep k with ⟨-, heq⟩ | ⟨-, ht⟩
      · exact (h.begun mv.r k y idx (heq ▸ hk)).mono [mv]
      · rw [hk] at ht
        exact h.begun_turn ht
  · obtain ⟨-, heq⟩ | ⟨rfl, hrep⟩ := reps_step hstep r
    · exact (h.calls r k ins (heq ▸ hk)).mono [mv]
    · rcases Replica.calls_step hrep k with ⟨-, heq⟩ | ⟨-, ht⟩
      · exact (h.calls mv.r k ins (heq ▸ hk)).mono [mv]
      · exact (h.turn hrec ht hk).mono [mv]
  · rw [soup_step hstep] at hm
    rcases List.mem_append.1 hm with hm | hm
    · exact (h.soup m hm i y hb).mono [mv]
    · exact (h.sends hm hb).mono [mv]

theorem Valid.start : start.Valid [] where
  number _ := rfl
  table _ _ _ hins := by cases hins
  begun _ _ _ _ hk := by cases hk
  calls _ _ _ hk := by cases hk
  soup _ hm := by cases hm

theorem valid_of_run (h : (machine cfg lib).Run start as c) : c.Valid as := by
  have hvalid : c.Valid ([] ++ as) :=
    h.history Valid.start fun _ _ _ _ hc _ hstep => hc.step hstep
  exact hvalid

/-- Until some replica has taken 2 ^ 64 numbers, no two commands other than the no-op are ever
stored under one instance, at whatever replicas and at whatever moments of a run. -/
theorem command_unique {bs : List Move} {ins' : Instance} (r r' : UInt64) (i : InstanceId)
    (h : (machine cfg lib).Run start as c) (h' : (machine cfg lib).Run c bs c')
    (hlen : ∀ r, (requests (as ++ bs) r).length < UInt64.size)
    (hins : (c.reps r).state.cmds i = some ins) (hins' : (c'.reps r').state.cmds i = some ins')
    (hnop : ins.Y ≠ .nop) (hnop' : ins'.Y ≠ .nop) : ins.Y = ins'.Y := by
  have hasked := (((valid_of_run h).table r i ins hins).2.resolve_left hnop).mono bs
  have hasked' := ((valid_of_run (h.append h')).table r' i ins' hins').2.resolve_left hnop'
  exact hasked.unique hasked' (hlen i.Rid)

theorem command_unique_fast : ∃ c c' ins ins', (machine three .plain).Run start fastCommit c ∧
    (machine three .plain).Run c [⟨1, 0, .commit write⟩] c' ∧
      (c.reps 0).state.cmds ⟨0, 1⟩ = some ins ∧
    (c'.reps 1).state.cmds ⟨0, 1⟩ = some ins' ∧ ins.Y = ins'.Y :=
  have h := (rfl : (machine three .plain).exec start fastCommit = some _)
  have h' := (rfl : (machine three .plain).exec _ [⟨1, 0, .commit write⟩] = some _)
  have hlen (r) : (requests (fastCommit ++ [⟨1, 0, .commit write⟩]) r).length < UInt64.size :=
    Nat.lt_of_le_of_lt (List.length_filterMap_le ..) (by decide)
  ⟨_, _, _, _, .of_exec h, .of_exec h', rfl, rfl,
    command_unique 0 1 ⟨0, 1⟩ (.of_exec h) (.of_exec h') hlen rfl rfl (by decide) (by decide)⟩

end

end Cluster

end Misc.Epaxos
