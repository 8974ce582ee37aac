import FlowGraph.Func.Reachable

/-! Drawings of a function in the DOT language: a table for every live block and a labelled
arrow for every edge. -/

namespace FlowGraph.Func

/-- Text inside a table cell. -/
def dotEscape (t : Text) : Text :=
  t.flatMap fun b =>
    if b = 38 then "&amp;"
    else if b = 39 then "&#39;"
    else if b = 60 then "&lt;"
    else if b = 62 then "&gt;"
    else if b = 34 then "&#34;"
    else if b = 32 then "&nbsp;"
    else [b]

def dotRow (t : Text) : Text := "<tr><td align=\"left\">" ++ dotEscape t ++ "</td></tr>"

def dotSection (rows : List Text) : Text :=
  if rows.isEmpty then [] else "<hr/>" ++ rows.flatMap dotRow

/-- The names of the parents. A missing parent has none. -/
def dotParents (fn : Func) (parents : List (Option BlockRef)) : Except Fault (List Text) :=
  parents.mapM fun
    | some p => .ok (fn.block p).name
    | none => .error .missingBlock

/-- The table of a block: its name, its parents, its phi nodes and its operations. The width
follows the longest row. -/
def dotLabel (fn : Func) (b : BlockRef) : Except Fault Text := do
  let bb := fn.block b
  let parents ← fn.dotParents bb.parents
  let head : Text := "# pred = \x7b" ++ Text.join ", " parents ++ "\x7d"
  let phis := bb.phis.map fun p => fn.phiText (fn.phi p)
  let ops := bb.ops.map fun o => fn.opText (fn.op o)
  let width := (head :: phis ++ ops).foldl (fun w t => max w t.length) 0
  return "<table border=\"1\" cellborder=\"0\" cellspacing=\"0\"><tr><td width=\"" ++
    Text.ofNat (width * 10 + 5) ++ "\">" ++ bb.name ++ "</td></tr><hr/>" ++ dotRow head ++
    dotSection phis ++ dotSection ops ++ "</table>"

/-- The label of an edge: the attribute it comes from, with the key in a collection. -/
structure Edge where
  target : BlockRef
  label : Text
deriving DecidableEq, Repr

/-- All references of a block to live blocks, labelled. -/
def dotReferences (fn : Func) (b : BlockRef) : List Edge :=
  (fn.block b).ops.flatMap fun o => (fn.op o).attributes.flatMap fun a =>
    a.slot.targets.filterMap fun t =>
      match t.block with
      | none => none
      | some q =>
        if fn.isLive q then
          some ⟨q, if a.slot.isCollection then a.name ++ "[" ++ Text.ofInt t.key ++ "]" else a.name⟩
        else none

/-- The first edge to each target. -/
def firstEdges : List Edge → List Edge
  | [] => []
  | e :: rest => e :: (firstEdges rest).filter (·.target ≠ e.target)

def dotEdge (fn : Func) (b : BlockRef) (e : Edge) : Text :=
  "    " ++ (fn.block b).name ++ " -> " ++ (fn.block e.target).name ++
    " [ label = \"" ++ e.label ++ "\" ]\n"

def dotBlock (fn : Func) (b : BlockRef) : Except Fault Text := do
  let label ← fn.dotLabel b
  return "    " ++ (fn.block b).name ++ " [ label = < " ++ label ++ " > ]\n" ++
    (firstEdges (fn.dotReferences b)).flatMap (fn.dotEdge b)

def dot (fn : Func) : Except Fault Text := do
  let blocks ← fn.reachableFrom fn.entry
  let start := (fn.entry.map fun b => (fn.block b).name).getD []
  let body ← blocks.mapM fn.dotBlock
  return "digraph " ++ Text.quoted fn.name ++ " \x7b\n" ++
    "    graph [ fontname = \"Fira Code\" ]\n" ++
    "    node [ fontname = \"Fira Code\" fontsize = \"16\" shape = \"plaintext\" ]\n" ++
    "    edge [ fontname = \"Fira Code\" ]\n" ++
    "    START [ shape = \"circle\" ]\n" ++
    "    START -> " ++ start ++ "\n" ++ body.flatten ++ "\x7d\n"

end FlowGraph.Func
