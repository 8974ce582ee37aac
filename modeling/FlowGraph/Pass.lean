import FlowGraph.Consistency
import FlowGraph.Func.Dump
import FlowGraph.Log
import FlowGraph.Options
import FlowGraph.Sink
import FlowGraph.Threading

/-! Passes in sequence, with dumps, checks and log lines around each of them. -/

namespace FlowGraph

structure Pass where
  name : Text
  apply : Action Work Unit

namespace Pass

def jumpThreading : Pass := ⟨"Jump Threading", threadJumps⟩

/-- The passes of an optimisation. -/
def standard : List Pass := [jumpThreading]

end Pass

inductive Moment where
  | before
  | after
deriving DecidableEq, Repr

def Moment.text : Moment → Text
  | before => "before"
  | after => "after"

/-- Why a sequence of passes came to an end early. -/
inductive RunError where
  /-- A dump could not be written. -/
  | dump (moment : Moment) (pass : Text)
  | verify (moment : Moment) (pass : Text) (cause : VerifyError)
  | fault (cause : Fault)
deriving DecidableEq, Repr

def RunError.message : RunError → Text
  | dump m p => "dump " ++ m.text ++ " " ++ p ++ ": " ++ Sink.fullMessage
  | verify m p e => "verify " ++ m.text ++ " " ++ p ++ ": " ++ e.message
  | fault f => f.message

/-- Where dumps and log lines go. Without a place of their own, log lines go where the dumps
go. -/
structure Outputs where
  dump : Sink := {}
  log : Option Sink := none
deriving DecidableEq, Repr, Inhabited

namespace Outputs

def writeDump (o : Outputs) (t : Text) : Outputs × Bool :=
  let (s, ok) := o.dump.write t
  ({ o with dump := s }, ok)

/-- Log lines that find no room are lost. -/
def writeLog (o : Outputs) (t : Text) : Outputs :=
  match o.log with
  | some s => { o with log := some (s.write t).1 }
  | none => { o with dump := (o.dump.write t).1 }

end Outputs

/-- The state of a run. -/
structure Run extends Work where
  out : Outputs := {}
deriving DecidableEq, Repr, Inhabited

namespace Run

abbrev M := ExceptT RunError (StateM Run)

def liftFault {α : Type} (e : Except Fault α) : M α :=
  match e with
  | .ok a => pure a
  | .error f => throw (.fault f)

def write (error : RunError) (t : Text) : M Unit := do
  let s ← get
  let (out, ok) := s.out.writeDump t
  set { s with out }
  if !ok then throw error

def heading (m : Moment) (pass : Text) (fn : Func) : Text :=
  "--- " ++ m.text ++ " " ++ pass ++ " (" ++ fn.name ++ ") ---\n"

/-- Dumps the graph under a heading, up to the first line that cannot be written. -/
def dump (m : Moment) (pass : Text) : M Unit := do
  let fn := (← get).fn
  write (.dump m pass) (heading m pass fn)
  (← liftFault fn.dumpLines).forM (write (.dump m pass))
  write (.dump m pass) "\n"

def verify (m : Moment) (pass : Text) : M Unit := do
  match ← liftFault (← get).fn.verify with
  | some e => throw (.verify m pass e)
  | none => pure ()

def apply (a : Action Work Unit) : M Unit := do
  let s ← get
  let (r, w) := a.run s.toWork
  set { s with toWork := w }
  liftFault r

/-- Reports how many blocks a pass eliminated. -/
def report (o : Options) (pass : Text) (before : Nat) : M Unit := do
  if o.level ≤ Level.debug then
    modify fun s => { s with out := s.out.writeLog (Log.line Level.debug "pass applied"
      [("func", s.fn.name), ("pass", pass),
       ("eliminated", Text.ofInt (s.fn.countDead - before))]) }

/-- One pass: dump and check before, the pass itself, check and dump after. -/
def pass (o : Options) (p : Pass) : M Unit := do
  if o.dumpsBefore p.name then dump .before p.name
  if o.verify then verify .before p.name
  let before := (← get).fn.countDead
  apply p.apply
  report o p.name before
  if o.verify then verify .after p.name
  if o.dumpsAfter p.name then dump .after p.name

def passes (o : Options) (ps : List Pass) : M Unit := ps.forM (pass o)

/-- All passes of an optimisation. -/
def optimize (o : Options) : M Unit := passes o Pass.standard

end Run

end FlowGraph
