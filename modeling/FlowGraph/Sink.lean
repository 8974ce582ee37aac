import FlowGraph.Text

/-! Where text is written to. A sink may have room for a limited number of bytes; it takes
the first bytes of what is written up to its limit and refuses the rest. -/

namespace FlowGraph

structure Sink where
  limit : Option Nat := none
  written : Text := []
deriving DecidableEq, Repr

namespace Sink

def fullMessage : Text := "disk full"

/-- Writes a text. The answer says whether all of it was taken. -/
def write (s : Sink) (t : Text) : Sink × Bool :=
  match s.limit with
  | none => ({ s with written := s.written ++ t }, true)
  | some n =>
    ({ s with written := s.written ++ t.take (n - s.written.length) },
      s.written.length + t.length ≤ n)

end Sink

end FlowGraph
