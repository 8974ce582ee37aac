/-! Counters of what was loaded and of what jump threading did. -/

namespace FlowGraph

structure Stats where
  funcs : Nat := 0
  blocks : Nat := 0
  eliminated : Nat := 0
  shortCircuits : Nat := 0
  phiMerges : Nat := 0
  phiRejects : Nat := 0
  selfLoops : Nat := 0
deriving DecidableEq, Repr, Inhabited

end FlowGraph
