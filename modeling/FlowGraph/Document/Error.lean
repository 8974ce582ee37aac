import FlowGraph.Text.Quoted
import FlowGraph.Yaml.Error

/-! Why a document describes no functions. -/

namespace FlowGraph

/-- What is wrong inside the description of a function. -/
inductive Flaw where
  | noBlocks
  | blockWithoutLabel
  | duplicateLabel (label : Text)
  | unknownEntry (label : Text)
  | phiWithoutResult
  | opWithoutKind
  | unknownKind (kind : Text)
  | jumpWithoutTarget
  | exprWithoutName
  | unknownLabel (label : Text)
deriving DecidableEq, Repr

def Flaw.message : Flaw → Text
  | noBlocks => "function has no blocks"
  | blockWithoutLabel => "block without a label"
  | duplicateLabel l => "duplicated label " ++ Text.quoted l
  | unknownEntry l => "unknown entry block " ++ Text.quoted l
  | phiWithoutResult => "phi without a result"
  | opWithoutKind => "op without a kind"
  | unknownKind k => "unknown op kind " ++ Text.quoted k
  | jumpWithoutTarget => "jump without a target"
  | exprWithoutName => "expr without a name"
  | unknownLabel l => "unknown label " ++ Text.quoted l

inductive FixtureCause where
  | unreadable (cause : Yaml.Error)
  | duplicateFunction (name : Text)
  | inFunction (name : Text) (flaw : Flaw)
deriving DecidableEq, Repr

def FixtureCause.reason : FixtureCause → Text
  | unreadable e => e.message
  | duplicateFunction n => "duplicated function " ++ Text.quoted n
  | inFunction n f => n ++ ": " ++ f.message

/-- A flaw of a fixture, with the line where it was found, or 0. -/
structure FixtureError where
  path : Text
  line : Int
  cause : FixtureCause
deriving DecidableEq, Repr

namespace FixtureError

def reason (e : FixtureError) : Text := e.cause.reason

def message (e : FixtureError) : Text :=
  let place : Text := if e.line = 0 then [] else ":" ++ Text.ofInt e.line
  "FixtureError(" ++ e.path ++ place ++ "): " ++ e.reason

end FixtureError

end FlowGraph
