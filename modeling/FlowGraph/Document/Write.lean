import FlowGraph.Document
import FlowGraph.Yaml.Write

/-! Documents as YAML texts. Fields that may be left out are left out when they are empty, and
lines are not written. -/

namespace FlowGraph

open Yaml

namespace Document

abbrev Pairs := List (Text × Layout)

def pair (k : Text) (v : Layout) : Pairs := [(k, v)]

/-- A pair that is left out under a condition. -/
def pairUnless (c : Bool) (k : Text) (v : Layout) : Pairs := if c then [] else [(k, v)]

def text? (k t : Text) : Pairs := pairUnless t.isEmpty k (.scalar t)

def texts? (k : Text) (l : List Text) : Pairs := pairUnless l.isEmpty k (.flow l)

end Document

open Document

def PhiDoc.layout (p : PhiDoc) : Layout :=
  .mapping (pair "result" (.scalar p.result) ++ pair "operands" (.flow p.operands))

def OpDoc.layout (o : OpDoc) : Layout :=
  let cases : Pairs := o.cases.entries.map fun e => (Text.ofInt e.1.toInt, .scalar e.2)
  .mapping (pair "kind" (.scalar o.kind) ++ text? "name" o.name ++ text? "result" o.result ++
    texts? "args" o.args ++ text? "cond" o.cond ++ text? "value" o.value ++
    text? "target" o.target ++ text? "if" o.onTrue ++ text? "else" o.onFalse ++
    pairUnless cases.isEmpty "cases" (.mapping cases) ++ text? "default" o.default ++
    text? "body" o.body ++ texts? "catch" o.handlers ++ text? "finally" o.last)

def BlockDoc.layout (b : BlockDoc) : Layout :=
  .mapping (pair "label" (.scalar b.label) ++
    pairUnless b.phis.isEmpty "phis" (.sequence (b.phis.map PhiDoc.layout)) ++
    pair "ops" (.sequence (b.ops.map OpDoc.layout)))

def FuncDoc.layout (f : FuncDoc) : Layout :=
  .mapping (pair "name" (.scalar f.name) ++ text? "entry" f.entry ++
    pair "blocks" (.sequence (f.blocks.map BlockDoc.layout)))

/-- The text of a document. -/
def Document.toYaml (d : Document) : Text :=
  writePairs 0 true (pair "functions" (.sequence (d.functions.map FuncDoc.layout)))

end FlowGraph
