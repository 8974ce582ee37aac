import FlowGraph.KeyMap
import FlowGraph.Text

/-! Documents describe functions by names: blocks refer to each other by label and values are
known by name. An empty name stands for a missing reference. Lines say where a part was read
from and are 0 otherwise. -/

namespace FlowGraph

structure PhiDoc where
  result : Text := []
  operands : List Text := []
  line : Int := 0
deriving DecidableEq, Repr, Inhabited

/-- An operation. Its kind decides which of the other fields count. -/
structure OpDoc where
  kind : Text := []
  name : Text := []
  result : Text := []
  args : List Text := []
  cond : Text := []
  value : Text := []
  target : Text := []
  onTrue : Text := []
  onFalse : Text := []
  cases : KeyMap Text := .empty
  default : Text := []
  body : Text := []
  handlers : List Text := []
  last : Text := []
  line : Int := 0
deriving DecidableEq, Repr, Inhabited

structure BlockDoc where
  label : Text := []
  phis : List PhiDoc := []
  ops : List OpDoc := []
  line : Int := 0
deriving DecidableEq, Repr, Inhabited

/-- A function. An empty entry stands for the first block. -/
structure FuncDoc where
  name : Text := []
  entry : Text := []
  blocks : List BlockDoc := []
  line : Int := 0
deriving DecidableEq, Repr, Inhabited

structure Document where
  functions : List FuncDoc := []
deriving DecidableEq, Repr, Inhabited

end FlowGraph
