import FlowGraph.KeyMap
import FlowGraph.Text

/-! The bytes of a snapshot. A value starts with a head byte that tells its kind, and for small
values its length or value too. Longer lengths follow the head, most significant byte first. -/

namespace FlowGraph.Wire

/-! Writing. -/

/-- The low `width` bytes of a number, most significant first. -/
def bigEndian (n : Nat) : (width : Nat) → Text
  | 0 => []
  | w + 1 => (n >>> (8 * w) % 256).toUInt8 :: bigEndian n w

/-- A text in the shortest form that holds its length. -/
def text (t : Text) : Text :=
  let n := t.length
  let head : Text :=
    if n < 32 then [0xA0 + n.toUInt8]
    else if n < 256 then 0xD9 :: bigEndian n 1
    else if n < 1 <<< 16 then 0xDA :: bigEndian n 2
    else 0xDB :: bigEndian n 4
  head ++ t

def arrayHead (n : Nat) : Text :=
  if n < 16 then [0x90 + n.toUInt8]
  else if n < 1 <<< 16 then 0xDC :: bigEndian n 2
  else 0xDD :: bigEndian n 4

def mapHead (n : Nat) : Text :=
  if n < 16 then [0x80 + n.toUInt8]
  else if n < 1 <<< 16 then 0xDE :: bigEndian n 2
  else 0xDF :: bigEndian n 4

/-- A key, always in full width. -/
def int64 (k : Int64) : Text := 0xD3 :: bigEndian k.toUInt64.toNat 8

def array (items : List Text) : Text := arrayHead items.length ++ items.flatten

/-- The cases of a switch in the order of their keys. -/
def cases (m : KeyMap Text) : Text :=
  mapHead m.size ++ m.entries.flatMap fun e => int64 e.1 ++ text e.2

/-! Reading. -/

/-- Takes a value from the front of the bytes. -/
abbrev Reader := StateT Text Option

namespace Reader

def byte : Reader UInt8 := fun t =>
  match t with
  | [] => none
  | b :: rest => some (b, rest)

def bytes (n : Nat) : Reader Text := fun t =>
  if n ≤ t.length then some (t.take n, t.drop n) else none

/-- A number of the given width in bytes. -/
def number (width : Nat) : Reader Nat := do
  return (← bytes width).foldl (fun n b => n * 256 + b.toNat) 0

def missing : UInt8 := 0xC0

/-- The length of a text whose head was read. Texts and plain bytes are not told apart. -/
def textLength (head : UInt8) : Reader Nat :=
  if 0xA0 ≤ head ∧ head ≤ 0xBF then pure (head.toNat - 0xA0)
  else if head = 0xD9 ∨ head = 0xC4 then number 1
  else if head = 0xDA ∨ head = 0xC5 then number 2
  else if head = 0xDB ∨ head = 0xC6 then number 4
  else failure

def arrayLength (head : UInt8) : Reader Nat :=
  if 0x90 ≤ head ∧ head ≤ 0x9F then pure (head.toNat - 0x90)
  else if head = 0xDC then number 2
  else if head = 0xDD then number 4
  else failure

def isMap (head : UInt8) : Bool := (0x80 ≤ head && head ≤ 0x8F) || head = 0xDE || head = 0xDF

def mapLength (head : UInt8) : Reader Nat :=
  if 0x80 ≤ head ∧ head ≤ 0x8F then pure (head.toNat - 0x80)
  else if head = 0xDE then number 2
  else if head = 0xDF then number 4
  else failure

/-- A text. A missing one is empty. -/
def text : Reader Text := do
  let head ← byte
  if head = missing then return []
  bytes (← textLength head)

/-- A signed number of any width. A missing one is 0, and unsigned numbers wrap. -/
def int64 : Reader Int64 := do
  let head ← byte
  if head = missing then return 0
  else if head ≤ 0x7F ∨ 0xE0 ≤ head then return head.toInt8.toInt64
  else if head = 0xCC then return Int64.ofNat (← number 1)
  else if head = 0xCD then return Int64.ofNat (← number 2)
  else if head = 0xCE then return Int64.ofNat (← number 4)
  else if head = 0xCF ∨ head = 0xD3 then return Int64.ofNat (← number 8)
  else if head = 0xD0 then return (Int8.ofNat (← number 1)).toInt64
  else if head = 0xD1 then return (Int16.ofNat (← number 2)).toInt64
  else if head = 0xD2 then return (Int32.ofNat (← number 4)).toInt64
  else failure

/-- The number of bytes behind the head of a value without parts, if it is one. -/
def payload? (head : UInt8) : Option Nat :=
  if head ≤ 0x7F ∨ 0xE0 ≤ head ∨ head = 0xC0 ∨ head = 0xC2 ∨ head = 0xC3 then some 0
  else if head = 0xCC ∨ head = 0xD0 then some 1
  else if head = 0xCD ∨ head = 0xD1 then some 2
  else if head = 0xCE ∨ head = 0xD2 ∨ head = 0xCA then some 4
  else if head = 0xCF ∨ head = 0xD3 ∨ head = 0xCB then some 8
  else if head = 0xD4 then some 2
  else if head = 0xD5 then some 3
  else if head = 0xD6 then some 5
  else if head = 0xD7 then some 9
  else if head = 0xD8 then some 17
  else none

/-- The width of the length behind the head of an extension of free length. -/
def extensionWidth? (head : UInt8) : Option Nat :=
  if head = 0xC7 then some 1
  else if head = 0xC8 then some 2
  else if head = 0xC9 then some 4
  else none

/-- Passes over one head with its payload. The answer is the number of values that belong to
it and still have to be passed over. -/
def skipHead : Reader Nat := do
  let head ← byte
  if let some n := payload? head then
    discard (bytes n)
    return 0
  else if let some w := extensionWidth? head then
    discard (bytes ((← number w) + 1))
    return 0
  else if isMap head then return 2 * (← mapLength head)
  else if (0x90 ≤ head ∧ head ≤ 0x9F) ∨ head = 0xDC ∨ head = 0xDD then arrayLength head
  else
    discard (bytes (← textLength head))
    return 0

/-- Passes over `pending` values. Each takes a byte at least, so as much fuel as there are
bytes suffices. -/
def skipValues : (fuel pending : Nat) → Reader Unit
  | _, 0 => pure ()
  | 0, _ + 1 => failure
  | fuel + 1, pending + 1 => do
    let more ← skipHead
    skipValues fuel (more + pending)

/-- Passes over one value of any kind. -/
def skip : Reader Unit := do skipValues (← get).length 1

/-- Reads `n` items, each into the item that was at its place. -/
def items {α : Type} (zero : α) (item : α → Reader α) : Nat → List α → Reader (List α)
  | 0, _ => pure []
  | n + 1, old => do
    let a ← item (old.headD zero)
    return a :: (← items zero item n old.tail)

/-- A list. A missing one is empty. -/
def listOf {α : Type} (zero : α) (item : α → Reader α) (old : List α) : Reader (List α) := do
  let head ← byte
  if head = missing then return []
  items zero item (← arrayLength head) old

/-- A list of texts. A missing one changes nothing. -/
def texts (old : List Text) : Reader (List Text) := do
  let head ← byte
  if head = missing then return old
  items [] (fun _ => text) (← arrayLength head) []

def caseEntries : Nat → KeyMap Text → Reader (KeyMap Text)
  | 0, m => pure m
  | n + 1, m => do
    let k ← int64
    let t ← text
    caseEntries n (m.insert k t)

/-- The head of a map, behind the head of an extension if there is one. -/
def casesHead : Reader UInt8 := do
  let head ← byte
  if 0xD4 ≤ head ∧ head ≤ 0xD8 then
    discard (bytes 1)
    byte
  else if let some w := extensionWidth? head then
    discard (bytes (w + 1))
    byte
  else return head

/-- Cases are added to those that are there. A missing map drops them all. -/
def cases (old : KeyMap Text) : Reader (KeyMap Text) := do
  let head ← casesHead
  if head = missing then return .empty
  caseEntries (← mapLength head) old

end Reader

end FlowGraph.Wire
