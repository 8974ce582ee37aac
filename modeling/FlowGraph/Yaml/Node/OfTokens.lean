import FlowGraph.Yaml.Node
import FlowGraph.Yaml.Token.Scan

/-! From tokens to the tree of the first document. -/

namespace FlowGraph.Yaml

/-- The tokens to come, and the names that hold at this place. -/
structure TreeState where
  tokens : List Token
  /-- The beginnings of tags that handles stand for. -/
  handles : List (Text × Text) := []
  /-- The latest node of each name. -/
  names : List (Text × Nat) := []
  next : Nat := 0
  done : List (Nat × Node) := []

namespace TreeState

abbrev M := StateT TreeState Option

def peek : M Token := do
  match (← get).tokens with
  | t :: _ => return t
  | [] => failure

def drop : M Unit := modify fun s => { s with tokens := s.tokens.tail }

/-- Passes over the next token if it is of a kind. -/
def accept (kind : TokenKind) : M Bool := do
  if (← peek).kind = kind then
    drop
    return true
  else return false

def empty (line : Nat) : Node := .ofScalar line true [] []

/-- The tag that a handle and what follows it stand for. -/
def fullTag (handle suffix : Text) : M Text := do
  if handle.isEmpty then return suffix
  match (← get).handles.lookup handle with
  | some start => return start ++ suffix
  | none => failure

/-- The properties of a node. -/
structure Properties where
  anchor : Option Text := none
  tag : Text := []

/-- An anchor and a tag, in either order. -/
def properties : (count : Nat) → Properties → M Properties
  | 0, p => return p
  | n + 1, p => do
    match (← peek).kind with
    | .anchor name =>
      if p.anchor.isSome then return p
      drop
      properties n { p with anchor := some name }
    | .tag handle suffix =>
      if !p.tag.isEmpty then return p
      let tag ← fullTag handle suffix
      drop
      properties n { p with tag }
    | _ => return p

/-- Gives a number to the node that is about to be read, if it has an anchor. -/
def register (p : Properties) : M (Option Nat) := do
  match p.anchor with
  | none => return none
  | some name =>
    let s ← get
    set { s with names := (name, s.next) :: s.names, next := s.next + 1 }
    return some s.next

def record (number : Option Nat) (n : Node) : M Node := do
  match number with
  | some i => modify fun s => { s with done := (i, n) :: s.done }
  | none => pure ()
  return n

def sequenceTag (tag : Text) : Text := if tag = [] ∨ tag = "!" then "!!seq" else Node.shortTag tag

def mappingTag (tag : Text) : Text := if tag = [] ∨ tag = "!" then "!!map" else Node.shortTag tag

mutual

/-- A node. Block collections are possible only in a block, and a sequence without
indentation of its own only as a value of a block mapping. -/
def node : (fuel : Nat) → (block indentless : Bool) → M Node
  | 0, _, _ => failure
  | fuel + 1, block, indentless => do
    let first ← peek
    if let .alias name := first.kind then
      drop
      match (← get).names.lookup name with
      | some n => return .alias first.line name n
      | none => failure
    let p ← properties 2 {}
    let t ← peek
    match t.kind with
    | .scalar plain text =>
      drop
      let number ← register p
      record number (.ofScalar first.line plain p.tag text)
    | .flowSequenceStart =>
      drop
      let number ← register p
      record number (.sequence first.line (sequenceTag p.tag) (← flowItems fuel true))
    | .flowMappingStart =>
      drop
      let number ← register p
      record number (.mapping first.line (mappingTag p.tag) (← flowPairs fuel true))
    | kind =>
      if indentless && kind = .blockEntry then
        let number ← register p
        record number (.sequence first.line (sequenceTag p.tag) (← looseItems fuel))
      else if block && kind = .blockSequenceStart then
        drop
        let number ← register p
        record number (.sequence first.line (sequenceTag p.tag) (← blockItems fuel))
      else if block && kind = .blockMappingStart then
        drop
        let number ← register p
        record number (.mapping first.line (mappingTag p.tag) (← blockPairs fuel))
      else if p.anchor.isSome || !p.tag.isEmpty then
        let number ← register p
        record number (.ofScalar first.line true p.tag [])
      else failure

/-- The items of a block sequence up to its end. -/
def blockItems : (fuel : Nat) → M (List Node)
  | 0 => failure
  | fuel + 1 => do
    let t ← peek
    if ← accept .blockEnd then return []
    if !(← accept .blockEntry) then failure
    let after := (← peek).kind
    let item ←
      if after = .blockEntry ∨ after = .blockEnd then pure (empty t.line)
      else node fuel true false
    return item :: (← blockItems fuel)

/-- The items of a sequence that stands at the indentation of its mapping. -/
def looseItems : (fuel : Nat) → M (List Node)
  | 0 => failure
  | fuel + 1 => do
    let t ← peek
    if !(← accept .blockEntry) then return []
    let after := (← peek).kind
    let item ←
      if after = .blockEntry ∨ after = .key ∨ after = .value ∨ after = .blockEnd then
        pure (empty t.line)
      else node fuel true false
    return item :: (← looseItems fuel)

/-- The pairs of a block mapping up to its end. -/
def blockPairs : (fuel : Nat) → M (List (Node × Node))
  | 0 => failure
  | fuel + 1 => do
    if ← accept .blockEnd then return []
    let t ← peek
    if !(← accept .key) then failure
    let k ← blockPart fuel t.line
    let t ← peek
    let v ← if ← accept .value then blockPart fuel t.line else pure (empty t.line)
    return (k, v) :: (← blockPairs fuel)

/-- A key or a value of a block mapping, empty if another one follows at once. -/
def blockPart : (fuel : Nat) → (line : Nat) → M Node
  | 0, _ => failure
  | fuel + 1, line => do
    let after := (← peek).kind
    if after = .key ∨ after = .value ∨ after = .blockEnd then return empty line
    node fuel true true

/-- The items of a flow sequence up to its end. A pair may stand as an item by itself. -/
def flowItems : (fuel : Nat) → (first : Bool) → M (List Node)
  | 0, _ => failure
  | fuel + 1, first => do
    if ← accept .flowSequenceEnd then return []
    if !first then
      if !(← accept .flowEntry) then failure
      if ← accept .flowSequenceEnd then return []
    let t ← peek
    let item ←
      if ← accept .key then
        let pair ← flowPair fuel
        pure (.mapping t.line "!!map" [pair])
      else node fuel false false
    return item :: (← flowItems fuel false)

/-- A pair inside a flow sequence. In place of a missing key one token is passed over. -/
def flowPair : (fuel : Nat) → M (Node × Node)
  | 0 => failure
  | fuel + 1 => do
    let t ← peek
    let k ←
      if t.kind = .value ∨ t.kind = .flowEntry ∨ t.kind = .flowSequenceEnd then
        drop
        pure (empty t.line)
      else node fuel false false
    let _ ← peek
    if ← accept .value then
      let t ← peek
      if t.kind = .flowEntry ∨ t.kind = .flowSequenceEnd then return (k, empty t.line)
      return (k, ← node fuel false false)
    else return (k, empty (← peek).line)

/-- The pairs of a flow mapping up to its end. -/
def flowPairs : (fuel : Nat) → (first : Bool) → M (List (Node × Node))
  | 0, _ => failure
  | fuel + 1, first => do
    if ← accept .flowMappingEnd then return []
    if !first then
      if !(← accept .flowEntry) then failure
      if ← accept .flowMappingEnd then return []
    let pair ←
      if ← accept .key then
        let t ← peek
        let k ←
          if t.kind = .value ∨ t.kind = .flowEntry ∨ t.kind = .flowMappingEnd then
            pure (empty t.line)
          else node fuel false false
        let hasValue ← accept .value
        let t ← peek
        if !hasValue || t.kind = .flowEntry || t.kind = .flowMappingEnd then
          pure (k, empty t.line)
        else pure (k, ← node fuel false false)
      else
        let k ← node fuel false false
        pure (k, empty (← peek).line)
    return pair :: (← flowPairs fuel false)

end

/-- The directives in front of a document. A directive of a kind or for a handle comes at
most once, and the only version is 1.1. -/
def directives : (fuel : Nat) → (version : Bool) → M Unit
  | 0, _ => failure
  | fuel + 1, version => do
    match (← peek).kind with
    | .version major minor =>
      if version || major ≠ 1 || minor ≠ 1 then failure
      drop
      directives fuel true
    | .tagHandle handle start =>
      if ((← get).handles.lookup handle).isSome then failure
      drop
      modify fun s => { s with handles := s.handles ++ [(handle, start)] }
      directives fuel version
    | _ => pure ()

def standardHandles : List (Text × Text) := [("!", "!"), ("!!", Node.longTag)]

/-- Tokens that belong to a document marker and not to the content of a document. -/
def isBoundary : TokenKind → Bool
  | .version .. | .tagHandle .. | .documentStart | .documentEnd | .streamEnd => true
  | _ => false

/-- The root of the first document, if there is a document. Directives or a marker in front
of it make it explicit, and then it may be empty. -/
def document (fuel : Nat) : M (Option Node) := do
  if !(← accept .streamStart) then failure
  let first ← peek
  if first.kind = .streamEnd then return none
  directives fuel false
  modify fun s => { s with handles := s.handles ++ standardHandles }
  if isBoundary first.kind then
    if !(← accept .documentStart) then failure
    let t ← peek
    if isBoundary t.kind then return some (empty t.line)
  let root ← node fuel true false
  let _ ← peek
  return some root

end TreeState

/-- The tree of the first document of a token list. -/
def Tree.ofTokens? (ts : List Token) : Option Tree := do
  let (root, s) ← (TreeState.document (4 * ts.length + 8)).run { tokens := ts }
  return { root, anchors := s.done, size := ts.length }

/-- The tree of the first document of a text. -/
def Tree.parse? (t : Text) : Option Tree := do
  Tree.ofTokens? (scan (← characters? t))

end FlowGraph.Yaml
