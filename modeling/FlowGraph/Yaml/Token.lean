import FlowGraph.Yaml.Char

/-! Tokens: the words and signs of a YAML text, with the signs that indentation stands for. -/

namespace FlowGraph.Yaml

inductive TokenKind where
  | streamStart
  | streamEnd
  | version (major minor : Nat)
  | tagHandle (handle start : Text)
  | documentStart
  | documentEnd
  | blockSequenceStart
  | blockMappingStart
  | blockEnd
  | flowSequenceStart
  | flowSequenceEnd
  | flowMappingStart
  | flowMappingEnd
  | blockEntry
  | flowEntry
  | key
  | value
  | alias (name : Text)
  | anchor (name : Text)
  | tag (handle suffix : Text)
  | scalar (plain : Bool) (text : Text)
deriving DecidableEq, Repr

/-- A token and the line where it starts, counted from 1. -/
structure Token where
  kind : TokenKind
  line : Nat
deriving DecidableEq, Repr

end FlowGraph.Yaml
