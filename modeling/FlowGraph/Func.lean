import FlowGraph.Op

/-! A function is a control flow graph: blocks of operations, phi nodes at their heads, and
for each block the list of its parents. Blocks, operations, phi nodes and values are told
apart by their place in the tables of the function and never by name, so that an operation
or a phi node may be shared. -/

namespace FlowGraph

/-- A merge of values at the head of a block. The operands form a set in order of insertion
and are not tied to parents. -/
structure Phi where
  result : Option ValueRef
  operands : List (Option ValueRef)
deriving DecidableEq, Repr

namespace Phi

instance : Inhabited Phi := ⟨⟨none, []⟩⟩

def hasOperand (p : Phi) (v : Option ValueRef) : Bool := v ∈ p.operands

def addOperand (p : Phi) (v : Option ValueRef) : Phi :=
  if v ∈ p.operands then p else { p with operands := p.operands ++ [v] }

def removeOperand (p : Phi) (v : Option ValueRef) : Phi :=
  { p with operands := p.operands.erase v }

def addOperands (p : Phi) (vs : List (Option ValueRef)) : Phi := vs.foldl addOperand p

/-- A phi node with the given operands, repetitions dropped. -/
def make (result : Option ValueRef) (vs : List (Option ValueRef)) : Phi :=
  addOperands ⟨result, []⟩ vs

end Phi

structure Block where
  id : Int := 0
  ops : List OpRef := []
  /-- Eliminated blocks stay in the function and are marked. -/
  dead : Bool := false
  phis : List PhiRef := []
  parents : List (Option BlockRef) := []
deriving DecidableEq, Repr, Inhabited

namespace Block

def name (b : Block) : Text := blockName b.id

def hasParent (b : Block) (p : Option BlockRef) : Bool := p ∈ b.parents

def addParent (b : Block) (p : Option BlockRef) : Block :=
  if p ∈ b.parents then b else { b with parents := b.parents ++ [p] }

def removeParent (b : Block) (p : Option BlockRef) : Block :=
  { b with parents := b.parents.erase p }

end Block

structure Func where
  name : Text
  entry : Option BlockRef := none
  blocks : List Block := []
  ops : List Op := []
  phis : List Phi := []
  /-- The names of the values. -/
  values : List Text := []
deriving DecidableEq, Repr

namespace Func

instance : Inhabited Func := ⟨⟨[], none, [], [], [], []⟩⟩

def block (fn : Func) (b : BlockRef) : Block := fn.blocks.getD b {}

def op (fn : Func) (o : OpRef) : Op := fn.ops.getD o default

def phi (fn : Func) (p : PhiRef) : Phi := fn.phis.getD p default

def valueName (fn : Func) : Option ValueRef → Text
  | none => "<nil>"
  | some v => fn.values.getD v []

def modifyBlock (fn : Func) (b : BlockRef) (f : Block → Block) : Func :=
  { fn with blocks := fn.blocks.modify b f }

def modifyPhi (fn : Func) (p : PhiRef) (f : Phi → Phi) : Func :=
  { fn with phis := fn.phis.modify p f }

def setOp (fn : Func) (o : OpRef) (op : Op) : Func := { fn with ops := fn.ops.set o op }

def addParent (fn : Func) (b : BlockRef) (p : Option BlockRef) : Func :=
  fn.modifyBlock b (·.addParent p)

def removeParent (fn : Func) (b : BlockRef) (p : Option BlockRef) : Func :=
  fn.modifyBlock b (·.removeParent p)

/-- A new block at the end. The first block becomes the entry. -/
def newBlock (fn : Func) : Func :=
  { fn with
    blocks := fn.blocks ++ [{ id := fn.blocks.length + 1 }]
    entry := fn.entry.or (some fn.blocks.length) }

def newBlocks (fn : Func) : Nat → Func
  | 0 => fn
  | n + 1 => newBlocks fn.newBlock n

/-- A new value with the given name, beside all others of that name. -/
def newValue (fn : Func) (name : Text) : Func × ValueRef :=
  ({ fn with values := fn.values ++ [name] }, fn.values.length)

def newOp (fn : Func) (op : Op) : Func × OpRef :=
  ({ fn with ops := fn.ops ++ [op] }, fn.ops.length)

def newPhi (fn : Func) (phi : Phi) : Func × PhiRef :=
  ({ fn with phis := fn.phis ++ [phi] }, fn.phis.length)

/-- Puts an operation at the end of a block and makes the block a parent of every block that
the operation refers to. -/
def appendOp (fn : Func) (b : BlockRef) (o : OpRef) : Func :=
  let fn := fn.modifyBlock b fun bb => { bb with ops := bb.ops ++ [o] }
  (fn.op o).blocks.foldl (fun fn t => fn.addParent t (some b)) fn

def append (fn : Func) (b : BlockRef) (os : List OpRef) : Func :=
  os.foldl (fun fn o => fn.appendOp b o) fn

/-- Writes targets into an attribute of an operation. -/
def store (fn : Func) (o : OpRef) (i : Nat) (tt : List Target) : Func × Option Fault :=
  let (op, fault) := (fn.op o).store i tt
  (fn.setOp o op, fault)

/-- All references of a block in the order of its operations, with repetitions. -/
def targetsOf (fn : Func) (b : BlockRef) : List Target :=
  (fn.block b).ops.flatMap fun o => (fn.op o).targets

/-- Whether an operation of the block holds this reference. A missing reference can be asked
for too. -/
def targets (fn : Func) (b : BlockRef) (t : Option BlockRef) : Bool :=
  (fn.targetsOf b).any (·.block = t)

/-- The first occurrences of each element. -/
def firsts : List BlockRef → List BlockRef
  | [] => []
  | b :: rest => b :: (firsts rest).filter (· ≠ b)

/-- The blocks that a block refers to, each once, in order of first reference. -/
def successors (fn : Func) (b : BlockRef) : List BlockRef :=
  firsts ((fn.targetsOf b).filterMap (·.block))

/-- The jump that a block starts with, if it does. Such a block is a trampoline. -/
def leadingJump (fn : Func) (b : BlockRef) : Option OpRef :=
  match (fn.block b).ops with
  | o :: _ => if (fn.op o).isJump then some o else none
  | [] => none

/-- The first phi node of a block that has the value as an operand. -/
def findPhiUsing (fn : Func) (b : BlockRef) (v : Option ValueRef) : Option PhiRef :=
  (fn.block b).phis.find? fun p => (fn.phi p).hasOperand v

/-- Whether a block exists and is not eliminated. -/
def isLive (fn : Func) (b : BlockRef) : Bool :=
  match fn.blocks[b]? with
  | some bb => !bb.dead
  | none => false

/-- The blocks that are not eliminated, in order of allocation. -/
def live (fn : Func) : List BlockRef := (List.range fn.blocks.length).filter fn.isLive

def countDead (fn : Func) : Nat := fn.blocks.countP (·.dead)

/-! How values, phi nodes and operations are shown. -/

def phiText (fn : Func) (p : Phi) : Text :=
  fn.valueName p.result ++ " = φ(" ++ Text.join ", " (p.operands.map fn.valueName) ++ ")"

def opText (fn : Func) : Op → Text
  | .jump _ => "Jump"
  | .branch c .. => "JumpIf " ++ fn.valueName c
  | .switch c .. => "Switch " ++ fn.valueName c
  | .region .. => "Try"
  | .expr name result args =>
    let call := name ++ "(" ++ Text.join ", " (args.map fn.valueName) ++ ")"
    match result with
    | none => call
    | some v => fn.valueName (some v) ++ " = " ++ call
  | .ret none => "Return"
  | .ret (some v) => "Return " ++ fn.valueName (some v)
  | .foreign _ text _ => text

end Func

end FlowGraph
