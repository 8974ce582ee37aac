import FlowGraph.Document
import FlowGraph.Snapshot.Wire

/-! Snapshots: documents as bytes. A record is a map from field names to values; a field that
may be left out is left out when it is empty. Lines are not kept. A record is also read from a
list of all its fields, unknown fields are passed over, and a field that comes twice is read
into what the first one left. -/

namespace FlowGraph.Snapshot

open Wire

/-- A field of a record: how it is written, when it is left out, and how it is read. -/
structure Field (σ : Type) where
  name : Text
  omitted : σ → Bool
  write : σ → Text
  read : σ → Reader σ

namespace Field

variable {σ α : Type}

/-- A text that is always written. -/
def text (name : Text) (get : σ → Text) (set : σ → Text → σ) : Field σ where
  name := name
  omitted _ := false
  write s := Wire.text (get s)
  read s := do return set s (← Reader.text)

/-- A field that is left out under a condition. -/
def omitWhen (f : Field σ) (c : σ → Bool) : Field σ := { f with omitted := c }

def text? (name : Text) (get : σ → Text) (set : σ → Text → σ) : Field σ :=
  (text name get set).omitWhen fun s => (get s).isEmpty

def texts (name : Text) (get : σ → List Text) (set : σ → List Text → σ) : Field σ where
  name := name
  omitted _ := false
  write s := Wire.array ((get s).map Wire.text)
  read s := do return set s (← Reader.texts (get s))

def texts? (name : Text) (get : σ → List Text) (set : σ → List Text → σ) : Field σ :=
  (texts name get set).omitWhen fun s => (get s).isEmpty

def list (name : Text) (zero : α) (write : α → Text) (read : α → Reader α)
    (get : σ → List α) (set : σ → List α → σ) : Field σ where
  name := name
  omitted _ := false
  write s := Wire.array ((get s).map write)
  read s := do return set s (← Reader.listOf zero read (get s))

def cases (name : Text) (get : σ → KeyMap Text) (set : σ → KeyMap Text → σ) : Field σ where
  name := name
  omitted s := (get s).isEmpty
  write s := Wire.cases (get s)
  read s := do return set s (← Reader.cases (get s))

end Field

section Record

variable {σ : Type}

def writeRecord (fields : List (Field σ)) (s : σ) : Text :=
  let kept := fields.filter fun f => !f.omitted s
  mapHead kept.length ++ kept.flatMap fun f => Wire.text f.name ++ f.write s

/-- Reads `n` named fields in any order. -/
def readNamed (fields : List (Field σ)) : Nat → σ → Reader σ
  | 0, s => pure s
  | n + 1, s => do
    let name ← Reader.text
    match fields.find? (·.name = name) with
    | some f => readNamed fields n (← f.read s)
    | none => do
      Reader.skip
      readNamed fields n s

/-- Reads all fields in order. -/
def readInOrder : List (Field σ) → σ → Reader σ
  | [], s => pure s
  | f :: rest, s => do readInOrder rest (← f.read s)

def readRecord (zero : σ) (fields : List (Field σ)) (s : σ) : Reader σ := do
  let head ← Reader.byte
  if head = Reader.missing then return zero
  else if Reader.isMap head then readNamed fields (← Reader.mapLength head) s
  else
    let n ← Reader.arrayLength head
    if n = 0 then return zero
    else if n = fields.length then readInOrder fields s
    else failure

end Record

def phiFields : List (Field PhiDoc) :=
  [.text "result" (·.result) fun s v => { s with result := v },
   .texts "operands" (·.operands) fun s v => { s with operands := v }]

def opFields : List (Field OpDoc) :=
  [.text "kind" (·.kind) fun s v => { s with kind := v },
   .text? "name" (·.name) fun s v => { s with name := v },
   .text? "result" (·.result) fun s v => { s with result := v },
   .texts? "args" (·.args) fun s v => { s with args := v },
   .text? "cond" (·.cond) fun s v => { s with cond := v },
   .text? "value" (·.value) fun s v => { s with value := v },
   .text? "target" (·.target) fun s v => { s with target := v },
   .text? "if" (·.onTrue) fun s v => { s with onTrue := v },
   .text? "else" (·.onFalse) fun s v => { s with onFalse := v },
   .cases "cases" (·.cases) fun s v => { s with cases := v },
   .text? "default" (·.default) fun s v => { s with default := v },
   .text? "body" (·.body) fun s v => { s with body := v },
   .texts? "catch" (·.handlers) fun s v => { s with handlers := v },
   .text? "finally" (·.last) fun s v => { s with last := v }]

def blockFields : List (Field BlockDoc) :=
  [.text "label" (·.label) fun s v => { s with label := v },
   Field.omitWhen (.list "phis" {} (writeRecord phiFields) (readRecord {} phiFields) (·.phis)
     fun s v => { s with phis := v }) (·.phis.isEmpty),
   .list "ops" {} (writeRecord opFields) (readRecord {} opFields) (·.ops)
     fun s v => { s with ops := v }]

def funcFields : List (Field FuncDoc) :=
  [.text "name" (·.name) fun s v => { s with name := v },
   .text? "entry" (·.entry) fun s v => { s with entry := v },
   .list "blocks" {} (writeRecord blockFields) (readRecord {} blockFields) (·.blocks)
     fun s v => { s with blocks := v }]

def documentFields : List (Field Document) :=
  [.list "functions" {} (writeRecord funcFields) (readRecord {} funcFields) (·.functions)
     fun s v => { s with functions := v }]

/-- The bytes of a document. -/
def encode (d : Document) : Text := writeRecord documentFields d

/-- Reads a document from the front of the bytes. What follows it does not matter. -/
def decode (t : Text) : Option Document :=
  ((readRecord {} documentFields {}).run t).map (·.1)

end FlowGraph.Snapshot
