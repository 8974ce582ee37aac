import FlowGraph.Stats
import FlowGraph.Text

/-! A table of counters, with the numbers in one column. -/

namespace FlowGraph.Stats

def row (name : Text) (count : Nat) : Text × Nat := (name ++ ":", count)

def rows (s : Stats) : List (Text × Nat) :=
  [row "functions" s.funcs, row "blocks" s.blocks, row "eliminated" s.eliminated,
   row "short-circuits" s.shortCircuits, row "phi merges" s.phiMerges,
   row "phi rejects" s.phiRejects, row "self loops" s.selfLoops]

/-- The longest name is one blank away from its number. -/
def table (s : Stats) : Text :=
  let width := (s.rows.map (·.1.length)).foldl max 0 + 1
  s.rows.flatMap fun (name, count) =>
    name ++ Text.spaces (width - name.length) ++ Text.ofNat count ++ "\n"

end FlowGraph.Stats
