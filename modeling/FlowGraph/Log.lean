import FlowGraph.Level

/-! Log lines: a level, a message and named values. -/

namespace FlowGraph.Log

/-- Whether a rune can stand in a value without quotes. -/
def plainRune : Text.Rune → Bool
  | .char c => if c.val < 0x80 then c.val ≥ 0x21 && c ≠ '"' && c ≠ '=' else Text.isPrintable c
  | .bad _ => false

/-- A value as it stands in a line. It is quoted unless it is plain throughout. A backslash
is plain. -/
def value (t : Text) : Text :=
  if !t.isEmpty && t.runes.all fun r => plainRune r && r ≠ .char '\ufffd' then t
  else Text.quoted t

def line (level : Level) (message : Text) (values : List (Text × Text)) : Text :=
  let fields : List (Text × Text) := ("level", level.name) :: ("msg", message) :: values
  Text.join " " (fields.map fun f => f.1 ++ "=" ++ value f.2) ++ "\n"

end FlowGraph.Log
