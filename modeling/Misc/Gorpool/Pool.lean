import Mathlib.Logic.Function.Basic
import Mathlib.Data.List.Nodup
import Misc.Lib.Machine

namespace Misc.Gorpool
open Misc.Lib
set_option autoImplicit true

inductive GorPc
  | select
  | running (fn : Nat)
  | returned
  | expired
  | down
  deriving DecidableEq, Repr

/-- A worker. Its channel has room for one function, and a function is known by the number of
the call of `Go` that submits it. -/
structure Gor where
  ch : Option Nat
  idx : Int
  pc : GorPc
  deriving DecidableEq, Repr

inductive CallPc
  | uncalled
  | called
  | create
  | send (g : Nat)
  | returned
  deriving DecidableEq, Repr

/-- The pool with its workers and callers, and the functions that have been started, in order. -/
structure Pool where
  idle : List Nat
  gors : Nat → Option Gor
  next : Nat
  calls : Nat → CallPc
  ran : List Nat
  panicked : Bool

/-- Each critical section, each operation on a channel and each `select` is one step. -/
inductive Act
  | go (k : Nat)
  | pop (k : Nat)
  | create (k : Nat)
  | send (k : Nat)
  | recv (g : Nat)
  | ret (g : Nat)
  | push (g : Nat)
  | expire (g : Nat)
  | shut (g : Nat)
  deriving DecidableEq, Repr

namespace Pool

def setCall (p : Pool) (k : Nat) (pc : CallPc) : Pool :=
  { p with calls := Function.update p.calls k pc }

def setGor (p : Pool) (g : Nat) (w : Gor) : Pool :=
  { p with gors := Function.update p.gors g (some w) }

/-- `t.idx = idx`. -/
def setIdx (p : Pool) (t : Nat) (idx : Int) : Pool :=
  { p with gors := Function.update p.gors t ((p.gors t).map fun w => { w with idx }) }

/-- The last of the idle workers takes the place `idx`; `none` is an index out of range. -/
def remove (p : Pool) (idx : Int) : Option Pool :=
  p.idle.getLast?.bind fun t =>
    if idx.toNat < p.idle.length then
      some { p.setIdx t idx with idle := (p.idle.set idx.toNat t).dropLast }
    else none

def pop (p : Pool) (k : Nat) : Pool :=
  match p.idle.getLast? with
  | some g => ({ p with idle := p.idle.dropLast }.setIdx g (-1)).setCall k (.send g)
  | none => p.setCall k .create

/-- A new worker, whose goroutine is started. -/
def create (p : Pool) (k : Nat) : Pool :=
  ({ p with next := p.next + 1 }.setGor p.next ⟨none, -1, .select⟩).setCall k (.send p.next)

/-- The critical section of a worker whose timer has expired. -/
def shut (p : Pool) (g : Nat) (w : Gor) : Pool :=
  if 0 ≤ w.idx then
    match p.remove w.idx with
    | some p =>
      { p with gors := Function.update p.gors g ((p.gors g).map fun w =>
      { w with pc := .down }) }
    | none => { p with panicked := true }
  else p.setGor g { w with pc := .select }

def gorproc (p : Pool) (g : Nat) (w : Gor) : Act → Option Pool
  | .recv _ =>
    match w.pc, w.ch with
    | .select, some k =>
      some { p.setGor g { w with ch := none, pc := .running k } with ran := p.ran ++ [k] }
    | _, _ => none
  | .ret _ =>
    match w.pc with
    | .running _ => some (p.setGor g { w with pc := .returned })
    | _ => none
  | .push _ =>
    if w.pc = .returned then
      some { p.setGor g { w with idx := p.idle.length, pc := .select }
        with idle := p.idle ++ [g] }
    else none
  | .expire _ => if w.pc = .select then some (p.setGor g { w with pc := .expired }) else none
  | .shut _ => if w.pc = .expired then some (p.shut g w) else none
  | _ => none

def step (p : Pool) (a : Act) : Option Pool :=
  if p.panicked then none
  else match a with
  | .go k => if p.calls k = .uncalled then some (p.setCall k .called) else none
  | .pop k => if p.calls k = .called then some (p.pop k) else none
  | .create k => if p.calls k = .create then some (p.create k) else none
  | .send k =>
    match p.calls k with
    | .send g => (p.gors g).bind fun w =>
      if w.ch = none then some ((p.setGor g { w with ch := some k }).setCall k .returned)
        else none
    | _ => none
  | .recv g | .ret g | .push g | .expire g | .shut g => (p.gors g).bind fun w => p.gorproc g w a

def new : Pool := ⟨[], fun _ => none, 0, fun _ => .uncalled, [], false⟩

end Pool

def machine : Machine Pool Act where
  init p := p = .new
  step := Pool.step

end Misc.Gorpool
