import FlowGraph.Document
import FlowGraph.Func.Reachable

/-! From functions back to documents. Only blocks that can be reached are described, the entry
first, under labels made from their numbers. -/

namespace FlowGraph

namespace Func

def label (fn : Func) : Option BlockRef → Text
  | none => []
  | some b => (fn.block b).name

/-- The name of a value in a document. -/
def docName (fn : Func) : Option ValueRef → Text
  | none => []
  | some v => fn.valueName (some v)

end Func

namespace PhiDoc

def ofPhi (fn : Func) (p : Phi) : PhiDoc where
  result := fn.docName p.result
  operands := p.operands.map fn.docName

end PhiDoc

namespace OpDoc

def ofOp (fn : Func) : Op → Except Fault OpDoc
  | .jump t => .ok { kind := "jump", target := fn.label t }
  | .branch c t f =>
    .ok { kind := "jumpif", cond := fn.docName c, onTrue := fn.label t, onFalse := fn.label f }
  | .switch c m d =>
    .ok { kind := "switch", cond := fn.docName c, cases := (m.getD .empty).map fn.label,
          default := fn.label d }
  | .region b hs l =>
    .ok { kind := "try", body := fn.label b, handlers := hs.map fn.label, last := fn.label l }
  | .expr name r args =>
    .ok { kind := "expr", name, result := fn.docName r, args := args.map fn.docName }
  | .ret v => .ok { kind := "return", value := fn.docName v }
  | .foreign kind _ _ => .error (.cannotExport kind)

end OpDoc

namespace BlockDoc

def ofBlock (fn : Func) (b : BlockRef) : Except Fault BlockDoc := do
  let bb := fn.block b
  let ops ← bb.ops.mapM fun o => OpDoc.ofOp fn (fn.op o)
  return { label := bb.name, phis := bb.phis.map fun p => .ofPhi fn (fn.phi p), ops }

end BlockDoc

namespace FuncDoc

def ofFunc (fn : Func) : Except Fault FuncDoc := do
  let order ← fn.reachableFrom fn.entry
  let blocks ← order.mapM (BlockDoc.ofBlock fn)
  return { name := fn.name, blocks }

end FuncDoc

namespace Document

def ofFuncs (fns : List Func) : Except Fault Document := do
  return { functions := ← fns.mapM FuncDoc.ofFunc }

end Document

end FlowGraph
