import FlowGraph.Document.Listing
import FlowGraph.Document.OfFunc
import FlowGraph.Document.Write
import FlowGraph.Func.Dot
import FlowGraph.Func.Dump
import FlowGraph.Snapshot

/-! Forms in which functions are printed. -/

namespace FlowGraph

/-- No switch has more than one case. -/
def Document.SingleCased (d : Document) : Prop :=
  ∀ f ∈ d.functions, ∀ b ∈ f.blocks, ∀ o ∈ b.ops, o.cases.size ≤ 1

/-- What each run of the program settles anew. Cases stand in a snapshot in any order, and a listing
shows addresses and capacities beside them. -/
structure Printers where
  snapshot : Document → Text
  listing : Document → Text
  snapshot_eq_encode : ∀ d, d.SingleCased → snapshot d = Snapshot.encode d
  snapshot_perm : ∀ d, (snapshot d).Perm (Snapshot.encode d)

/-- Cases in the order of their keys, no address and no capacity. -/
def Printers.plain : Printers where
  snapshot := Snapshot.encode
  listing := Listing.document
  snapshot_eq_encode _ _ := rfl
  snapshot_perm _ := .refl _

inductive Format where
  | text
  | dot
  | yaml
  | snapshot
  | listing
deriving DecidableEq, Repr

namespace Format

def ofName? (t : Text) : Option Format :=
  if t = "text" then some text
  else if t = "dot" then some dot
  else if t = "yaml" then some yaml
  else if t = "msgpack" then some snapshot
  else if t = "spew" then some listing
  else none

/-- A dump under the name of its function. -/
def titledDump (fn : Func) : Except Fault Text := do
  let t ← fn.dump
  return "== " ++ fn.name ++ "\n" ++ t

/-- The dumps of functions, with empty lines between them. -/
def dumps (fns : List Func) : Except Fault Text := return Text.join "\n" (← fns.mapM titledDump)

def render (printers : Printers) (fns : List Func) : Format → Except Fault Text
  | text => dumps fns
  | dot => return (← fns.mapM Func.dot).flatten
  | yaml => return (← Document.ofFuncs fns).toYaml
  | snapshot => return printers.snapshot (← Document.ofFuncs fns)
  | listing => return printers.listing (← Document.ofFuncs fns)

/-- What is said to have failed when there is no room for the output. -/
def doing : Format → Text
  | yaml => "encode document: yaml: write error: "
  | snapshot => "encode snapshot: "
  | _ => []

/-- Whether a lack of room counts as a failure. A listing is written as far as it goes. -/
def mustFit : Format → Bool
  | listing => false
  | _ => true

end Format

end FlowGraph
