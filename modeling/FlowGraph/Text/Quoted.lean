import FlowGraph.Text.Printable

/-! Text between double quotes, as messages and log lines show it: printable characters as
they are, named escapes for the usual controls, and numbers for the rest. -/

namespace FlowGraph.Text

/-- The named escape of a control character. -/
def namedEscape? : Char → Option Char
  | '\x07' => some 'a'
  | '\x08' => some 'b'
  | '\x0c' => some 'f'
  | '\n' => some 'n'
  | '\r' => some 'r'
  | '\t' => some 't'
  | '\x0b' => some 'v'
  | _ => none

/-- A rune inside quotes. Bytes and code points that cannot be shown are written in lower
case hexadecimal digits, two for a byte, four or eight for a code point. -/
def Rune.quoted : Rune → Text
  | .bad b => "\\x" ++ hex false b.toNat 2
  | .char c =>
    if c = '"' ∨ c = '\\' then "\\" ++ ofChar c
    else if isPrintable c then ofChar c
    else match namedEscape? c with
    | some e => "\\" ++ ofChar e
    | none =>
      if c.toNat < 0x20 ∨ c.toNat = 0x7F then "\\x" ++ hex false c.toNat 2
      else if c.toNat < 0x10000 then "\\u" ++ hex false c.toNat 4
      else "\\U" ++ hex false c.toNat 8

def quoted (t : Text) : Text := "\"" ++ t.runes.flatMap Rune.quoted ++ "\""

end FlowGraph.Text
