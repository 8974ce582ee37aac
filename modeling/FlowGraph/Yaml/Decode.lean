import FlowGraph.KeyMap
import FlowGraph.Text.Base64
import FlowGraph.Yaml.Error
import FlowGraph.Yaml.Node.OfTokens

/-! Typed data from trees. What does not fit is noted and passed over, so that one reading
finds all such places. A reader gives no value for a node that leaves its target unchanged. -/

namespace FlowGraph.Yaml

/-- Reading with a list of the places that do not fit. -/
abbrev Decode := StateT (List Mismatch) (Except Error)

namespace Decode

def note (m : Mismatch) : Decode Unit := modify (· ++ [m])

/-- What two keys are compared by. -/
def keyText : Node → Nat × Text
  | .scalar _ _ v => (0, v)
  | .sequence .. => (1, [])
  | .mapping .. => (2, [])
  | .alias _ name _ => (3, name)

/-- Notes every pair of equal keys. The answer says whether there was one. -/
def noteDuplicates : List (Node × Node) → Decode Bool
  | [] => return false
  | (k, _) :: rest => do
    let same := rest.filter fun p => keyText p.1 = keyText k
    same.forM fun p => note (.duplicateKey p.1.line (keyText p.1).2 k.line)
    let more ← noteDuplicates rest
    return !same.isEmpty || more

/-- Notes that a node is not of the expected type. -/
def noteType (n : Node) (expected : Text) : Decode Unit := do
  let wrong (line : Nat) (tag value : Text) : Decode Unit :=
    let shown := if tag = "!!seq" ∨ tag = "!!map" then none else some value
    note (.wrongType line tag shown expected)
  match n with
  | .scalar line tag value => wrong line tag value
  | .sequence line tag _ => wrong line tag []
  | .mapping line tag pairs =>
    if !(← noteDuplicates pairs) then wrong line tag []
  | .alias .. => pure ()

/-- Tags that say what a scalar must mean. -/
def strictTags : List Text := ["!!null", "!!bool", "!!int", "!!float", "!!timestamp"]

/-- The meaning of a scalar under its tag, and its text. A meaning that contradicts the tag
makes the whole document malformed. Under a tag of another kind a scalar is a text. -/
def meaning (tag value : Text) : Decode (Scalar × Text) := do
  if tag = "!!binary" then
    match Text.ofBase64? value with
    | some t => return (.text, t)
    | none => throw .malformed
  if tag ∉ strictTags then return (.text, value)
  let s := Scalar.resolve (tag = "!!timestamp") value
  if s.tag = tag then return (s, value)
  match s with
  | .int n =>
    if tag = "!!float" && n ≤ Int64.maxValue.toInt then
      return (.float { negative := n < 0, digits := n.natAbs }, value)
    else throw .malformed
  | _ => throw .malformed

/-- A text: any scalar but null, as it is written. -/
def text (t : Tree) (n : Node) : Decode (Option Text) := do
  match t.deref n with
  | .scalar _ tag value =>
    let (s, value) ← meaning tag value
    return if s = .null then none else some value
  | n => do
    noteType n "string"
    return none

/-- Older words for truth values, which are taken where a truth value is wanted. -/
def oldBool? (t : Text) : Option Bool :=
  if t ∈ (["y", "Y", "yes", "Yes", "YES", "on", "On", "ON"] : List String).map Text.ofString then
    some true
  else if t ∈ (["n", "N", "no", "No", "NO", "off", "Off", "OFF"] : List String).map Text.ofString then
    some false
  else none

def bool (t : Tree) (n : Node) : Decode (Option Bool) := do
  let n := t.deref n
  match n with
  | .scalar _ tag value =>
    match ← meaning tag value with
    | (.null, _) => return none
    | (.bool b, _) => return some b
    | (.text, v) =>
      match oldBool? v with
      | some b => return some b
      | none => wrong n
    | _ => wrong n
  | _ => wrong n
where
  wrong (n : Node) : Decode (Option Bool) := do
    noteType n "bool"
    return none

def int64 (t : Tree) (n : Node) : Decode (Option Int64) := do
  let n := t.deref n
  match n with
  | .scalar _ tag value =>
    let (s, _) ← meaning tag value
    if s = .null then return none
    match s.toInt64? with
    | some k => return some k
    | none => wrong n
  | _ => wrong n
where
  wrong (n : Node) : Decode (Option Int64) := do
    noteType n "int64"
    return none

/-- A value that reads its own text and may refuse it. -/
def parsed {α : Type} (type : Text) (read : Text → Except Text α) (t : Tree) (n : Node) :
    Decode (Option α) := do
  match t.deref n with
  | .scalar _ tag value =>
    let (s, value) ← meaning tag value
    if s = .null then return none
    match read value with
    | .ok a => return some a
    | .error e => throw (.refused e)
  | n => do
    noteType n type
    return none

/-- A list. Items without a value are left out, and null is the empty list. -/
def list {α : Type} (type : Text) (item : Tree → Node → Decode (Option α)) (t : Tree)
    (n : Node) : Decode (Option (List α)) := do
  match t.deref n with
  | .sequence _ _ items => return some (← items.filterMapM (item t))
  | .scalar line tag value =>
    let (s, _) ← meaning tag value
    if s = .null then return some []
    noteType (.scalar line tag value) type
    return none
  | n => do
    noteType n type
    return none

/-! Mappings. A merge key brings in the pairs of other mappings behind the pairs that are
there already. -/

def isMerge : Node → Bool
  | .scalar _ tag value => tag = "!!merge" && value = "<<"
  | _ => false

/-- The value of the last merge key. -/
def mergeValue? (pairs : List (Node × Node)) : Option Node :=
  ((pairs.filter fun p => isMerge p.1).getLast?).map (·.2)

/-- The mappings that a merge key names. -/
def mergeSources (t : Tree) (n : Node) : Decode (List Node) := do
  let mapping (n : Node) : Decode Node := do
    match t.deref n with
    | .mapping l g ps => return .mapping l g ps
    | _ => throw .malformed
  match n with
  | .sequence _ _ items => items.mapM mapping
  | _ => return [← mapping n]

/-- A record type: its name in messages, and how each field is read into a value. -/
structure Record (σ : Type) where
  type : Text
  fields : List (Text × (Tree → Node → σ → Decode σ))

/-- A field that is set when its reader has a value. -/
def field {σ α : Type} (name : Text) (read : Tree → Node → Decode (Option α))
    (set : σ → α → σ) : Text × (Tree → Node → σ → Decode σ) :=
  (name, fun t n s => do
    match ← read t n with
    | some a => return set s a
    | none => return s)

/-- The state of reading pairs: the record, the fields set by this mapping, and the keys that
may not be merged in again, if this is a merge. -/
structure Progress (σ : Type) where
  value : σ
  done : List Text := []
  taken : Option (List Text)

def recordPair {σ : Type} (r : Record σ) (t : Tree) (p : Progress σ) (kv : Node × Node) :
    Decode (Progress σ) := do
  if isMerge kv.1 then return p
  match ← text t kv.1 with
  | none => return p
  | some name =>
    if p.taken.any (name ∈ ·) then return p
    let p := { p with taken := p.taken.map (name :: ·) }
    match r.fields.lookup name with
    | none => return p
    | some read =>
      if name ∈ p.done then
        note (.fieldTwice kv.1.line name r.type)
        return p
      return { p with done := name :: p.done, value := ← read t kv.2 p.value }

/-- The keys of a mapping that are texts. -/
def textKeys (t : Tree) (pairs : List (Node × Node)) : Decode (List Text) :=
  pairs.filterMapM fun p => do
    match t.deref p.1 with
    | .scalar _ tag value =>
      let (s, value) ← meaning tag value
      return if s = .text then some value else none
    | _ => return none

/-- Reads the pairs of a mapping into a record. A chain of merges is no longer than the tree
is large, unless it runs in a circle. -/
def recordPairs {σ : Type} (r : Record σ) (t : Tree) : (fuel : Nat) → (taken : Option (List Text)) →
    List (Node × Node) → σ → Decode (σ × Option (List Text))
  | 0, _, _, _ => throw .malformed
  | fuel + 1, taken, pairs, s => do
    if ← noteDuplicates pairs then return (s, taken)
    let p ← pairs.foldlM (recordPair r t) { value := s, taken }
    match mergeValue? pairs with
    | none => return (p.value, p.taken)
    | some m =>
      let start ← match p.taken with
        | some ks => pure ks
        | none => textKeys t pairs
      let sources ← mergeSources t m
      let (s, after) ← sources.foldlM (fun (s, taken) source => do
        match source with
        | .mapping _ _ ps => recordPairs r t fuel taken ps s
        | _ => return (s, taken)) (p.value, some start)
      return (s, if taken.isSome then after else none)

/-- Reads a node into a record. Null leaves it unchanged. -/
def record {σ : Type} (r : Record σ) (t : Tree) (n : Node) (s : σ) : Decode σ := do
  match t.deref n with
  | .mapping _ _ pairs => return (← recordPairs r t (t.size + 1) none pairs s).1
  | .scalar line tag value =>
    let (m, _) ← meaning tag value
    if m ≠ .null then noteType (.scalar line tag value) r.type
    return s
  | n => do
    noteType n r.type
    return s

def isNull : Node → Bool
  | .scalar _ tag _ => tag = "!!null"
  | _ => false

/-- A record as an item of a list. Null is no item. -/
def item {σ : Type} (r : Record σ) (make : Nat → σ) (t : Tree) (n : Node) :
    Decode (Option σ) := do
  let n := t.deref n
  let s ← record r t n (make n.line)
  return if isNull n then none else some s

/-- The state of reading cases: those read, whether there was nothing before, and the keys
that may not be merged in again, if this is a merge. -/
structure CaseProgress where
  cases : KeyMap Text
  fresh : Bool
  taken : Option (List Int64)

/-- Reads one case. Null stands for the empty text, but not over a case that is there. -/
def casePair (t : Tree) (p : CaseProgress) (kv : Node × Node) : Decode CaseProgress := do
  if isMerge kv.1 then return p
  match ← int64 t kv.1 with
  | none => return p
  | some k =>
    if p.taken.any (k ∈ ·) then return p
    let p := { p with taken := p.taken.map (k :: ·) }
    match ← text t kv.2 with
    | some v => return { p with cases := p.cases.insert k v }
    | none =>
      if isNull (t.deref kv.2) && (p.fresh || (p.cases.get? k).isNone) then
        return { p with cases := p.cases.insert k [] }
      else return p

/-- Reads the pairs of a mapping as cases. Merged cases replace those of the mapping itself,
and of several merged ones the first stays. -/
def casePairs (t : Tree) : (fuel : Nat) → List (Node × Node) → CaseProgress → Decode CaseProgress
  | 0, _, _ => throw .malformed
  | fuel + 1, pairs, p => do
    if ← noteDuplicates pairs then return p
    let q ← pairs.foldlM (casePair t) p
    match mergeValue? pairs with
    | none => return q
    | some m =>
      let sources ← mergeSources t m
      let merged ← sources.foldlM (fun p source => do
        match source with
        | .mapping _ _ ps => casePairs t fuel ps p
        | _ => return p) { q with fresh := false, taken := some (q.taken.getD []) }
      return { merged with taken := if p.taken.isSome then merged.taken else none }

/-- The cases of a switch. -/
def cases (t : Tree) (n : Node) : Decode (Option (KeyMap Text)) := do
  match t.deref n with
  | .mapping _ _ pairs =>
    let p ← casePairs t (t.size + 1) pairs { cases := .empty, fresh := true, taken := none }
    return some p.cases
  | .scalar line tag value =>
    let (m, _) ← meaning tag value
    if m = .null then return some .empty
    noteType (.scalar line tag value) "map[int64]string"
    return none
  | n => do
    noteType n "map[int64]string"
    return none

/-- Reads the first document of a text into a record. -/
def run {σ : Type} (r : Record σ) (s : σ) (input : Text) : Except Error σ := do
  match Tree.parse? input with
  | none => throw .malformed
  | some t =>
    let (s, notes) ← match t.root with
      | some n => StateT.run (record r t n s) []
      | none => pure (s, [])
    if notes.isEmpty then return s else throw (.mismatches notes)

end Decode

end FlowGraph.Yaml
