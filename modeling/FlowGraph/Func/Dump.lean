import FlowGraph.Func.Reachable

/-! The text dump of a function. Blocks are numbered in the order of the dump, so that graphs
of the same structure have the same dump, however their blocks were allocated. The dump is written
line by line, and the lines put together are its text. -/

namespace FlowGraph.Func

/-- A block by its number in the dump. A block that the dump leaves out has a question mark
and its own name. -/
def dumpName (fn : Func) (order : List BlockRef) (b : BlockRef) : Text :=
  match order.idxOf? b with
  | some i => "Block#" ++ Text.ofNat (i + 1)
  | none =>
    let name : Text := "Block#? (" ++ (fn.block b).name
    if (fn.block b).dead then name ++ ", dead)" else name ++ ")"

def dumpTarget (fn : Func) (order : List BlockRef) (a : Attribute) (t : Target) : Text :=
  match t.block with
  | none => []
  | some b =>
    let key : Text := if a.slot.isCollection then "[" ++ Text.ofInt t.key ++ "]" else ""
    "        " ++ a.name ++ key ++ ": " ++ fn.dumpName order b ++ "\n"

def dumpOp (fn : Func) (order : List BlockRef) (op : Op) : Text :=
  "    " ++ fn.opText op ++ "\n" ++
    op.attributes.flatMap fun a => a.slot.targets.flatMap (fn.dumpTarget order a)

def dumpParent (fn : Func) (order : List BlockRef) : Option BlockRef → Text
  | some p =>
    let line : Text := "    Parent: " ++ fn.dumpName order p ++ "\n"
    if p ∈ order then line else []
  | none => []

/-- A block with those of its parents that the dump has, its phi nodes and its operations. -/
def dumpBlock (fn : Func) (order : List BlockRef) (b : BlockRef) : Text :=
  let bb := fn.block b
  fn.dumpName order b ++ ("\n" : Text) ++
    bb.parents.flatMap (fn.dumpParent order) ++
    (bb.phis.flatMap fun p => ("    " : Text) ++ fn.phiText (fn.phi p) ++ ("\n" : Text)) ++
    bb.ops.flatMap fun o => fn.dumpOp order (fn.op o)

/-- The dump of all blocks reachable from an entry, with blank lines between them. -/
def dumpFrom (fn : Func) (entry : BlockRef) : Text :=
  let order := fn.reachable entry
  Text.join "\n" (order.map (fn.dumpBlock order))

def dump (fn : Func) : Except Fault Text :=
  match fn.entry with
  | none => .error .missingBlock
  | some b => .ok (fn.dumpFrom b)

/-! Line by line. A missing reference and a parent that the dump does not have come to nothing and
are not written at all. -/

def dumpOpLines (fn : Func) (order : List BlockRef) (op : Op) : List Text :=
  ("    " ++ fn.opText op ++ "\n") ::
    op.attributes.flatMap fun a => a.slot.targets.map (fn.dumpTarget order a)

def dumpBlockLines (fn : Func) (order : List BlockRef) (b : BlockRef) : List Text :=
  let bb := fn.block b
  [fn.dumpName order b ++ ("\n" : Text)] ++
    bb.parents.map (fn.dumpParent order) ++
    (bb.phis.map fun p => ("    " : Text) ++ fn.phiText (fn.phi p) ++ ("\n" : Text)) ++
    bb.ops.flatMap fun o => fn.dumpOpLines order (fn.op o)

def dumpLinesFrom (fn : Func) (entry : BlockRef) : List Text :=
  let order := fn.reachable entry
  (List.intercalate [("\n" : Text)] (order.map (fn.dumpBlockLines order))).filter (· ≠ [])

def dumpLines (fn : Func) : Except Fault (List Text) :=
  match fn.entry with
  | none => .error .missingBlock
  | some b => .ok (fn.dumpLinesFrom b)

end FlowGraph.Func
