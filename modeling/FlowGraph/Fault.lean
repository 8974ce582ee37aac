import FlowGraph.Text.Quoted

/-! The ways in which work on a graph can break off. The library never breaks off on a graph
that a document describes; graphs put together by hand can be incomplete. -/

namespace FlowGraph

inductive Fault where
  /-- A block was needed where a reference is missing. -/
  | missingBlock
  /-- A list attribute has no place with this index. -/
  | indexOutOfRange (index : Int) (length : Nat)
  /-- A single attribute takes exactly one block. -/
  | notSingle (name : Text) (count : Nat)
  /-- A leading jump leads nowhere. -/
  | jumpWithoutTarget (id : Int)
  /-- An eliminated block must lead somewhere. -/
  | eliminatedWithoutJump (id : Int)
  /-- A document has no form for an operation of a foreign type. -/
  | cannotExport (kind : Text)
deriving DecidableEq, Repr

/-- How a block is called in messages and drawings. -/
def blockName (id : Int) : Text := "bb_" ++ Text.ofInt id

namespace Fault

def message : Fault → Text
  | missingBlock => "invalid memory address or nil pointer dereference"
  | indexOutOfRange i n =>
    let place : Text := "index out of range [" ++ Text.ofInt i ++ "]"
    if i < 0 then place else place ++ " with length " ++ Text.ofNat n
  | notSingle a n =>
    "ir: attribute " ++ Text.quoted a ++ " holds a single block, got " ++ Text.ofNat n
  | jumpWithoutTarget id => "simplifier: jump in " ++ blockName id ++ " has no target"
  | eliminatedWithoutJump id =>
    "simplifier: eliminated block " ++ blockName id ++ " does not start with a jump"
  | cannotExport kind => "loader: cannot export op " ++ kind

/-- Faults of the machine underneath, against those that the library raises itself. -/
def isRuntime : Fault → Bool
  | missingBlock | indexOutOfRange .. => true
  | _ => false

end Fault

/-- Work on a state that may break off. The state stays as the fault left it. -/
abbrev Action (σ : Type) := ExceptT Fault (StateM σ)

end FlowGraph
