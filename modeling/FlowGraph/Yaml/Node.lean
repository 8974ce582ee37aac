import FlowGraph.Yaml.Scalar

/-! The tree that a YAML document stands for. Lines count from 1. Tags are in their short form
and never empty. -/

namespace FlowGraph.Yaml

inductive Node where
  | scalar (line : Nat) (tag value : Text)
  | sequence (line : Nat) (tag : Text) (items : List Node)
  | mapping (line : Nat) (tag : Text) (pairs : List (Node × Node))
  /-- The node with the given number among those with an anchor. -/
  | alias (line : Nat) (name : Text) (anchor : Nat)
deriving Repr

namespace Node

instance : Inhabited Node := ⟨.scalar 0 "!!null" []⟩

def line : Node → Nat
  | .scalar l .. | .sequence l .. | .mapping l .. | .alias l .. => l

def longTag : Text := "tag:yaml.org,2002:"

/-- Tags of the language itself have a short form. -/
def shortTag (t : Text) : Text :=
  match Text.dropStart? longTag t with
  | some rest => "!!" ++ rest
  | none => t

/-- A scalar under its tag. Without one, a plain scalar has the tag of its meaning, with a tag
of its own for the merge key, and any other scalar is a text. -/
def ofScalar (line : Nat) (plain : Bool) (tag value : Text) : Node :=
  let tag :=
    if tag ≠ [] ∧ tag ≠ "!" then shortTag tag
    else if plain then
      if value = "<<" then "!!merge" else (Scalar.resolve true value).tag
    else "!!str"
  .scalar line tag value

end Node

/-- A document: its root, if it has one, and the nodes with an anchor under their numbers. -/
structure Tree where
  root : Option Node := none
  anchors : List (Nat × Node) := []
  /-- A bound on the nodes of the tree. -/
  size : Nat := 0
deriving Repr, Inhabited

/-- The node that an alias stands for. -/
def Tree.deref (t : Tree) : Node → Node
  | .alias _ _ n => (t.anchors.lookup n).getD default
  | n => n

end FlowGraph.Yaml
