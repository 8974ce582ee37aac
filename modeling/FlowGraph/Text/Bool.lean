import FlowGraph.Text

/-! Words for truth values. -/

namespace FlowGraph.Text

def parseBool? (t : Text) : Option Bool :=
  if t ∈ (["1", "t", "T", "true", "TRUE", "True"] : List Text) then some true
  else if t ∈ (["0", "f", "F", "false", "FALSE", "False"] : List Text) then some false
  else none

end FlowGraph.Text
