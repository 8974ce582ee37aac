import FlowGraph.Text.Number
import FlowGraph.Text.Quoted

/-! Levels of log lines: numbers, with names for four of them. -/

namespace FlowGraph

abbrev Level := Int

inductive LevelError where
  /-- The part before the offset is no name of a level. -/
  | unknownName (text : Text)
  | badOffset (text offset : Text) (cause : NumberError)
deriving DecidableEq, Repr

def LevelError.message : LevelError → Text
  | unknownName t => "slog: level string " ++ Text.quoted t ++ ": unknown name"
  | badOffset t o e => "slog: level string " ++ Text.quoted t ++ ": strconv.Atoi: parsing " ++
      Text.quoted o ++ ": " ++ e.message

namespace Level

def debug : Level := -4

def info : Level := 0

def warn : Level := 4

def error : Level := 8

/-- The nearest name below, and the distance from it. -/
def name (l : Level) : Text :=
  let shown (base : Text) (offset : Int) : Text :=
    if offset = 0 then base
    else if offset < 0 then base ++ Text.ofInt offset
    else base ++ "+" ++ Text.ofInt offset
  if l < info then shown "DEBUG" (l - debug)
  else if l < warn then shown "INFO" l
  else if l < error then shown "WARN" (l - warn)
  else shown "ERROR" (l - error)

/-- Upper case. Beside the letters of ASCII, a dotless i has an upper case in ASCII. -/
def upperName : Text → Text
  | 0xC4 :: 0xB1 :: rest => 73 :: upperName rest
  | b :: rest => (if 97 ≤ b ∧ b ≤ 122 then b - 32 else b) :: upperName rest
  | [] => []

def ofName? (t : Text) : Option Level :=
  let name := upperName t
  if name = "DEBUG" then some debug
  else if name = "INFO" then some info
  else if name = "WARN" then some warn
  else if name = "ERROR" then some error
  else none

/-- Reads a name in any case and an optional offset with its sign. The offset is read first.
Sums wrap at 64 bits. -/
def parse (t : Text) : Except LevelError Level := do
  let base := t.takeWhile fun b => b ≠ 43 ∧ b ≠ 45
  let tail := t.dropWhile fun b => b ≠ 43 ∧ b ≠ 45
  let offset ← if tail.isEmpty then pure 0 else (Text.parseInt64 tail).mapError (.badOffset t tail)
  match ofName? base with
  | some l => return (l + offset).bmod (1 <<< 64)
  | none => throw (.unknownName t)

end Level

end FlowGraph
