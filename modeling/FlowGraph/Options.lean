import FlowGraph.Level

/-! Settings of an optimisation. -/

namespace FlowGraph

structure Options where
  /-- Check the graph before and after every pass. -/
  verify : Bool := false
  /-- The pass before which the graph is dumped, or a star for all. -/
  dumpBefore : Text := []
  dumpAfter : Text := []
  level : Level := Level.info
deriving DecidableEq, Repr, Inhabited

namespace Options

/-- Whether a pattern names a pass. The empty pattern names none. -/
def selects (pattern pass : Text) : Bool :=
  pattern = "*" || (!pattern.isEmpty && pattern = pass)

def dumpsBefore (o : Options) (pass : Text) : Bool := selects o.dumpBefore pass

def dumpsAfter (o : Options) (pass : Text) : Bool := selects o.dumpAfter pass

end Options

end FlowGraph
