import FlowGraph.Document
import FlowGraph.Text.Quoted

/-! A listing of a document with the types and lengths of all its parts. Missing lists and maps
are told apart from empty ones: what may be left out of a document is missing when empty. -/

namespace FlowGraph.Listing

/-- A value with its type. -/
inductive Value where
  | text (t : Text)
  | number (type : Text) (n : Int)
  | missing (type : Text)
  | list (type : Text) (items : List Value)
  | map (type : Text) (entries : List (Value × Value))
  | record (type : Text) (fields : List (Text × Value))

/-- The length of a value that has one, unless it is empty. -/
def length (n : Nat) : Text := if n = 0 then [] else "(len=" ++ Text.ofNat n ++ ") "

def typed (t : Text) : Text := "(" ++ t ++ ") "

mutual

/-- A value whose parts are indented one step further than the value. -/
def Value.write (depth : Nat) : Value → Text
  | .text t => typed "string" ++ length t.length ++ Text.quoted t
  | .number type n => typed type ++ Text.ofInt n
  | .missing type => typed type ++ "<nil>"
  | .list type items =>
    typed type ++ length items.length ++ "\x7b\n" ++ writeItems (depth + 1) items ++
      Text.spaces depth ++ "\x7d"
  | .map type entries =>
    typed type ++ length entries.length ++ "\x7b\n" ++ writeEntries (depth + 1) entries ++
      Text.spaces depth ++ "\x7d"
  | .record type fields =>
    typed type ++ "\x7b\n" ++ writeFields (depth + 1) fields ++ Text.spaces depth ++ "\x7d"

def writeItems (depth : Nat) : List Value → Text
  | [] => []
  | v :: rest =>
    Text.spaces depth ++ v.write depth ++ (if rest.isEmpty then "\n" else ",\n" : String) ++
      writeItems depth rest

def writeEntries (depth : Nat) : List (Value × Value) → Text
  | [] => []
  | (k, v) :: rest =>
    Text.spaces depth ++ k.write depth ++ ": " ++ v.write depth ++
      (if rest.isEmpty then "\n" else ",\n" : String) ++ writeEntries depth rest

def writeFields (depth : Nat) : List (Text × Value) → Text
  | [] => []
  | (k, v) :: rest =>
    Text.spaces depth ++ k ++ ": " ++ v.write depth ++
      (if rest.isEmpty then "\n" else ",\n" : String) ++ writeFields depth rest

end

def list? (type : Text) (items : List Value) : Value :=
  if items.isEmpty then .missing type else .list type items

def texts? (l : List Text) : Value := list? "[]string" (l.map .text)

def ofPhi (p : PhiDoc) : Value :=
  .record "loader.PhiDoc" [("Result", .text p.result),
    ("Operands", .list "[]string" (p.operands.map .text)), ("Line", .number "int" p.line)]

def ofOp (o : OpDoc) : Value :=
  let cases := o.cases.entries.map fun e => (Value.number "int64" e.1.toInt, Value.text e.2)
  let caseMap : Value :=
    if cases.isEmpty then .missing "map[int64]string" else .map "map[int64]string" cases
  .record "loader.OpDoc" [("Kind", .text o.kind), ("Name", .text o.name),
    ("Result", .text o.result), ("Args", texts? o.args), ("Cond", .text o.cond),
    ("Value", .text o.value), ("Target", .text o.target), ("If", .text o.onTrue),
    ("Else", .text o.onFalse), ("Cases", caseMap), ("Default", .text o.default),
    ("Body", .text o.body), ("Catch", texts? o.handlers), ("Finally", .text o.last),
    ("Line", .number "int" o.line)]

def ofBlock (b : BlockDoc) : Value :=
  .record "loader.BlockDoc" [("Label", .text b.label),
    ("Phis", list? "[]loader.PhiDoc" (b.phis.map ofPhi)),
    ("Ops", .list "[]loader.OpDoc" (b.ops.map ofOp)), ("Line", .number "int" b.line)]

def ofFunc (f : FuncDoc) : Value :=
  .record "loader.FuncDoc" [("Name", .text f.name), ("Entry", .text f.entry),
    ("Blocks", .list "[]loader.BlockDoc" (f.blocks.map ofBlock)), ("Line", .number "int" f.line)]

/-- The listing of a document. It is reached through a pointer, whose address is not shown. -/
def document (d : Document) : Text :=
  "(*loader.Document)(PTR)(\x7b\n" ++
    writeFields 1 [("Functions", .list "[]loader.FuncDoc" (d.functions.map ofFunc))] ++ "\x7d)\n"

end FlowGraph.Listing
