import FlowGraph.Document
import FlowGraph.Document.Error
import FlowGraph.Func
import FlowGraph.Stats

/-! From documents to functions. All blocks exist before any is filled, so labels may be used
before the block they name; values of the same name within a function are the same value. -/

namespace FlowGraph

/-- A flaw and its line. -/
structure BuildError where
  line : Int
  flaw : Flaw
deriving DecidableEq, Repr

/-- The names of a function. A label or a value is referred to by its place here. -/
structure Scope where
  labels : List Text
  values : List Text
deriving DecidableEq, Repr

namespace Scope

/-- The value with the given name. The empty name is no value. -/
def value (s : Scope) (name : Text) : Option ValueRef :=
  if name.isEmpty then none else s.values.idxOf? name

/-- The block with the given label. The empty label is no block. -/
def block (s : Scope) (label : Text) : Except Flaw (Option BlockRef) :=
  if label.isEmpty then .ok none
  else match s.labels.idxOf? label with
    | some b => .ok (some b)
    | none => .error (.unknownLabel label)

/-- The block of every case, looked up in the order of the keys. -/
def cases (s : Scope) (m : KeyMap Text) : Except Flaw (KeyMap (Option BlockRef)) := do
  let entries ← m.entries.mapM fun e => do return (e.1, ← s.block e.2)
  return KeyMap.ofList entries

end Scope

namespace PhiDoc

def valueNames (p : PhiDoc) : List Text := p.result :: p.operands

def build (s : Scope) (p : PhiDoc) : Except Flaw Phi :=
  if p.result.isEmpty then .error .phiWithoutResult
  else .ok (Phi.make (s.value p.result) (p.operands.map s.value))

end PhiDoc

namespace OpDoc

/-- The names of values in the fields that count for the kind. -/
def valueNames (o : OpDoc) : List Text :=
  if o.kind = "jump" then []
  else if o.kind = "jumpif" then [o.cond]
  else if o.kind = "switch" then [o.cond]
  else if o.kind = "try" then []
  else if o.kind = "expr" then o.result :: o.args
  else if o.kind = "return" then [o.value]
  else []

def build (s : Scope) (o : OpDoc) : Except Flaw Op :=
  if o.kind = "jump" then
    if o.target.isEmpty then .error .jumpWithoutTarget
    else do return .jump (← s.block o.target)
  else if o.kind = "jumpif" then
    do return .branch (s.value o.cond) (← s.block o.onTrue) (← s.block o.onFalse)
  else if o.kind = "switch" then
    do return .switch (s.value o.cond) (← s.cases o.cases).made? (← s.block o.default)
  else if o.kind = "try" then
    do return .region (← s.block o.body) (← o.handlers.mapM s.block) (← s.block o.last)
  else if o.kind = "expr" then
    if o.name.isEmpty then .error .exprWithoutName
    else .ok (.expr o.name (s.value o.result) (o.args.map s.value))
  else if o.kind = "return" then .ok (.ret (s.value o.value))
  else if o.kind.isEmpty then .error .opWithoutKind
  else .error (.unknownKind o.kind)

end OpDoc

namespace BlockDoc

def valueNames (b : BlockDoc) : List Text :=
  b.phis.flatMap PhiDoc.valueNames ++ b.ops.flatMap OpDoc.valueNames

def addPhi (s : Scope) (b : BlockRef) (fn : Func) (p : PhiDoc) : Except BuildError Func := do
  let phi ← (p.build s).mapError (⟨p.line, ·⟩)
  let (fn, r) := fn.newPhi phi
  return fn.modifyBlock b fun bb => { bb with phis := bb.phis ++ [r] }

def addOp (s : Scope) (b : BlockRef) (fn : Func) (o : OpDoc) : Except BuildError Func := do
  let op ← (o.build s).mapError (⟨o.line, ·⟩)
  let (fn, r) := fn.newOp op
  return fn.appendOp b r

/-- Fills block `b` of the function. -/
def fill (s : Scope) (fn : Func) (b : BlockRef) (d : BlockDoc) : Except BuildError Func := do
  let fn ← d.phis.foldlM (addPhi s b) fn
  d.ops.foldlM (addOp s b) fn

end BlockDoc

namespace FuncDoc

/-- Each block has a label of its own. -/
def checkLabels (seen : List Text) : List BlockDoc → Except BuildError Unit
  | [] => .ok ()
  | b :: rest =>
    if b.label.isEmpty then .error ⟨b.line, .blockWithoutLabel⟩
    else if b.label ∈ seen then .error ⟨b.line, .duplicateLabel b.label⟩
    else checkLabels (b.label :: seen) rest

def scope (f : FuncDoc) : Scope :=
  ⟨f.blocks.map BlockDoc.label,
    ((f.blocks.flatMap BlockDoc.valueNames).filter (!·.isEmpty)).eraseDups⟩

/-- The entry block by its label, or the first block. -/
def entryBlock (f : FuncDoc) : Except BuildError BlockRef :=
  if f.entry.isEmpty then .ok 0
  else match f.scope.labels.idxOf? f.entry with
    | some b => .ok b
    | none => .error ⟨f.line, .unknownEntry f.entry⟩

def build (f : FuncDoc) : Except BuildError Func := do
  if f.blocks.isEmpty then throw ⟨f.line, .noBlocks⟩
  checkLabels [] f.blocks
  let entry ← f.entryBlock
  let empty : Func := { name := f.name, values := f.scope.values }
  let fn := { empty.newBlocks f.blocks.length with entry := some entry }
  f.blocks.zipIdx.foldlM (fun fn (d, b) => d.fill f.scope fn b) fn

end FuncDoc

namespace Document

/-- Builds functions under names not seen before. The counters grow with every function, also
if a later one has a flaw. -/
def buildFuncs (path : Text) (seen : List Text) :
    List FuncDoc → ExceptT FixtureError (StateM Stats) (List Func)
  | [] => pure []
  | f :: rest => do
    if f.name ∈ seen then throw ⟨path, f.line, .duplicateFunction f.name⟩
    match f.build with
    | .error e => throw ⟨path, e.line, .inFunction f.name e.flaw⟩
    | .ok fn =>
      modify fun c => { c with funcs := c.funcs + 1, blocks := c.blocks + fn.blocks.length }
      return fn :: (← buildFuncs path (f.name :: seen) rest)

/-- All functions of a document. The path is for messages only. -/
def build (path : Text) (d : Document) : ExceptT FixtureError (StateM Stats) (List Func) :=
  buildFuncs path [] d.functions

end Document

end FlowGraph
