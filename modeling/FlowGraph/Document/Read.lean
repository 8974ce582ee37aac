import FlowGraph.Document.Build
import FlowGraph.Yaml.Decode

/-! Documents from YAML texts. -/

namespace FlowGraph

open Yaml Decode

namespace PhiDoc

def yaml : Record PhiDoc where
  type := "loader._PhiDoc"
  fields :=
    [field "result" text fun s v => { s with result := v },
     field "operands" (list "[]string" text) fun s v => { s with operands := v }]

end PhiDoc

namespace OpDoc

def yaml : Record OpDoc where
  type := "loader._OpDoc"
  fields :=
    [field "kind" text fun s v => { s with kind := v },
     field "name" text fun s v => { s with name := v },
     field "result" text fun s v => { s with result := v },
     field "args" (list "[]string" text) fun s v => { s with args := v },
     field "cond" text fun s v => { s with cond := v },
     field "value" text fun s v => { s with value := v },
     field "target" text fun s v => { s with target := v },
     field "if" text fun s v => { s with onTrue := v },
     field "else" text fun s v => { s with onFalse := v },
     field "cases" Decode.cases fun s v => { s with cases := v },
     field "default" text fun s v => { s with default := v },
     field "body" text fun s v => { s with body := v },
     field "catch" (list "[]string" text) fun s v => { s with handlers := v },
     field "finally" text fun s v => { s with last := v }]

end OpDoc

namespace BlockDoc

def yaml : Record BlockDoc where
  type := "loader._BlockDoc"
  fields :=
    [field "label" text fun s v => { s with label := v },
     field "phis" (list "[]loader.PhiDoc" (item PhiDoc.yaml fun l => { line := l }))
       fun s v => { s with phis := v },
     field "ops" (list "[]loader.OpDoc" (item OpDoc.yaml fun l => { line := l }))
       fun s v => { s with ops := v }]

end BlockDoc

namespace FuncDoc

def yaml : Record FuncDoc where
  type := "loader._FuncDoc"
  fields :=
    [field "name" text fun s v => { s with name := v },
     field "entry" text fun s v => { s with entry := v },
     field "blocks" (list "[]loader.BlockDoc" (item BlockDoc.yaml fun l => { line := l }))
       fun s v => { s with blocks := v }]

end FuncDoc

namespace Document

def yaml : Record Document where
  type := "loader.Document"
  fields :=
    [field "functions" (list "[]loader.FuncDoc" (item FuncDoc.yaml fun l => { line := l }))
       fun s v => { s with functions := v }]

/-- Reads a document. The path is for messages only. -/
def read (path input : Text) : Except FixtureError Document :=
  (Decode.run yaml {} input).mapError fun e => ⟨path, 0, .unreadable e⟩

/-- Reads a document and builds its functions. -/
def load (path input : Text) : ExceptT FixtureError (StateM Stats) (List Func) := do
  match read path input with
  | .ok d => d.build path
  | .error e => throw e

end Document

end FlowGraph
