import FlowGraph.Text.Base64
import FlowGraph.Yaml.Char
import FlowGraph.Yaml.Scalar

/-! Scalars as text. A scalar is written plain where that is read back as the same text, and
otherwise with quotes or, if it has line feeds, as a literal block. -/

namespace FlowGraph.Yaml

/-- Characters that need no escape. -/
def isShown (c : Char) : Bool :=
  let n := c.toNat
  n = 0x0A || (0x20 ≤ n && n ≤ 0x7E) || (0xA0 ≤ n && n ≤ 0xD7FF) ||
    (0xE000 ≤ n && n ≤ 0xFFFD && n ≠ 0xFEFF)

/-- The forms that the characters of a text allow. -/
structure Forms where
  plainInFlow : Bool
  plainInBlock : Bool
  singleQuoted : Bool
  literal : Bool
deriving DecidableEq, Repr

/-- Whether the text has a character of the first kind directly before one of the second. -/
def hasPair (p q : Char → Bool) : List Char → Bool
  | a :: b :: rest => (p a && q b) || hasPair p q (b :: rest)
  | _ => false

/-- Whether a character stands before a blank or at the end. -/
def hasBeforeBlank (x : Char) : List Char → Bool
  | [] => false
  | c :: rest => (c = x && (rest.isEmpty || rest.head?.any isBlank)) || hasBeforeBlank x rest

def indicators : List Char :=
  ['#', ',', '[', ']', '{', '}', '&', '*', '!', '|', '>', '\'', '"', '%', '@', '\x60']

/-- Whether a text could be taken for something else if it were written plain in a block. -/
def blockIndicator (cs : List Char) : Bool :=
  ['-', '-', '-'].isPrefixOf cs || ['.', '.', '.'].isPrefixOf cs ||
    cs.head?.any (· ∈ indicators) ||
    (cs.head?.any (fun c => c = '?' || c = '-') &&
      (cs.tail.isEmpty || cs.tail.head?.any isBlank)) ||
    hasBeforeBlank ':' cs || hasPair (fun c => isBlank c || isBreak c) (· = '#') cs

/-- The same inside a flow collection. -/
def flowIndicator (cs : List Char) : Bool :=
  blockIndicator cs || cs.any (· ∈ [',', '?', '[', ']', '{', '}', ':'])

def forms (cs : List Char) : Forms :=
  let isSpace (c : Char) : Bool := c = ' '
  let edge := cs.head?.any (fun c => isSpace c || isBreak c) ||
    cs.getLast?.any (fun c => isSpace c || isBreak c)
  let spaceBreak := hasPair isSpace isBreak cs
  let breakSpace := hasPair isBreak isSpace cs
  let special := cs.any fun c => c ≠ '\t' && !isShown c
  let quotable := !breakSpace && !spaceBreak && !special && !cs.contains '\t'
  let plain := quotable && !edge && !cs.any isBreak
  { plainInFlow := plain && !flowIndicator cs
    plainInBlock := plain && !blockIndicator cs
    singleQuoted := quotable
    literal := !cs.getLast?.any isSpace && !spaceBreak && !special }

/-! Texts that have another meaning when written plain. -/

def isDigitOr (c d : Char) : Bool := d.isDigit || d = c

/-- Parts of a number to the base sixty, each behind a colon. -/
def sexagesimalParts : List (List Char) → Bool
  | [] => true
  | part :: rest =>
    (match part with
      | [a] => a.isDigit
      | [a, b] => '0' ≤ a && a ≤ '5' && b.isDigit
      | _ => false) && sexagesimalParts rest

/-- Splits at every occurrence of a character. -/
def splitAt (x : Char) : List Char → List (List Char)
  | [] => [[]]
  | c :: rest =>
    match splitAt x rest with
    | [] => [[]]
    | part :: more => if c = x then [] :: part :: more else (c :: part) :: more

/-- Numbers to the base sixty, as in times and angles. -/
def isSexagesimal (cs : List Char) : Bool :=
  let cs := match cs with
    | '+' :: rest | '-' :: rest => rest
    | _ => cs
  let body := cs.takeWhile (· ≠ '.')
  let fraction := (cs.drop body.length).drop 1
  match splitAt ':' body with
  | first :: part :: parts =>
    first.head?.any Char.isDigit && first.all (isDigitOr '_') &&
      sexagesimalParts (part :: parts) && fraction.all (isDigitOr '_')
  | _ => false

/-- Older words for truth values. -/
def oldBools : List Text :=
  ["y", "Y", "yes", "Yes", "YES", "on", "On", "ON", "n", "N", "no", "No", "NO", "off", "Off", "OFF"]

/-- Whether a text keeps its meaning when it is written plain. -/
def staysText (t : Text) (cs : List Char) : Bool :=
  Scalar.resolve true t = .text && !isSexagesimal cs && !oldBools.contains t

/-! The written forms. -/

/-- A line break followed by the indentation, when more follows on the line. -/
def singleQuotedBody (indent : Nat) (afterBreak : Bool) : List Char → List Char
  | [] => []
  | c :: rest =>
    if isBreak c then c :: singleQuotedBody indent true rest
    else
      let lead := if afterBreak then List.replicate indent ' ' else []
      let quoted := if c = '\'' then ['\'', '\''] else [c]
      lead ++ quoted ++ singleQuotedBody indent false rest

def escapeLetter? : Char → Option Char
  | '\x00' => some '0'
  | '\x07' => some 'a'
  | '\x08' => some 'b'
  | '\t' => some 't'
  | '\n' => some 'n'
  | '\x0b' => some 'v'
  | '\x0c' => some 'f'
  | '\r' => some 'r'
  | '\x1b' => some 'e'
  | '"' => some '"'
  | '\\' => some '\\'
  | '\x85' => some 'N'
  | '\u2028' => some 'L'
  | '\u2029' => some 'P'
  | _ => none

def doubleQuotedChar (c : Char) : Text :=
  if isShown c && !isBreak c && c ≠ '"' && c ≠ '\\' then Text.ofChar c
  else match escapeLetter? c with
  | some e => "\\" ++ Text.ofChar e
  | none =>
    let n := c.toNat
    if n ≤ 0xFF then "\\x" ++ Text.hex true n 2
    else if n ≤ 0xFFFF then "\\u" ++ Text.hex true n 4
    else "\\U" ++ Text.hex true n 8

/-- The signs in the first line of a literal block: the indentation if the text starts with a
blank line or a space, and what becomes of the line breaks at its end. -/
def literalSigns (cs : List Char) : Text :=
  let hint : Text := if cs.head?.any (fun c => c = ' ' || isBreak c) then "2" else ""
  let chomp : Text := match cs.reverse with
    | [] => "-"
    | [a] => if isBreak a then "+" else "-"
    | a :: b :: _ => if !isBreak a then "-" else if isBreak b then "+" else ""
  hint ++ chomp

/-- The lines of a literal block. The first line break of the text ends the first line of the
block if the text starts with it. -/
def literalBody (indent : Nat) (afterBreak : Bool) : List Char → List Char
  | [] => []
  | c :: rest =>
    if isBreak c then c :: literalBody indent true rest
    else
      let lead := if afterBreak then List.replicate indent ' ' else []
      lead ++ c :: literalBody indent false rest

/-- Base64 digits in lines of seventy, if there is more than one line. -/
def binaryLines : (fuel : Nat) → Text → Text
  | 0, t => t
  | fuel + 1, t => if t.isEmpty then [] else t.take 70 ++ 10 :: binaryLines fuel (t.drop 70)

def binaryText (t : Text) : Text :=
  let digits := Text.toBase64 t
  if digits.length < 70 then digits else binaryLines digits.length digits

/-- A scalar with the indentation that its further lines have. -/
def writeChars (inFlow : Bool) (indent : Nat) (canBePlain : Bool) (cs : List Char) : Text :=
  let f := forms cs
  let double : Text := "\"" ++ cs.flatMap doubleQuotedChar ++ "\""
  if cs.contains '\n' then
    if inFlow || !f.literal then double
    else
      let lines : List Char := match cs with
        | c :: _ => if isBreak c then literalBody indent true cs else '\n' :: literalBody indent true cs
        | [] => []
      "|" ++ literalSigns cs ++ Text.ofChars lines
  else if !canBePlain then double
  else if (if inFlow then f.plainInFlow else f.plainInBlock) then Text.ofChars cs
  else if f.singleQuoted then "'" ++ Text.ofChars (singleQuotedBody indent false cs) ++ "'"
  else double

/-- A text as a scalar. What is no UTF-8 is written in base64 under a tag. -/
def writeScalar (inFlow : Bool) (indent : Nat) (t : Text) : Text :=
  match t.chars? with
  | some cs => writeChars inFlow indent (staysText t cs) cs
  | none =>
    let digits := binaryText t
    "!!binary " ++ writeChars inFlow indent true ((Text.chars? digits).getD [])

/-! Collections. -/

/-- What a document is written from: scalars, lists of scalars on one line, and block
collections. -/
inductive Layout where
  | scalar (t : Text)
  | flow (items : List Text)
  | sequence (items : List Layout)
  | mapping (pairs : List (Text × Layout))

/-- Whether the next character would stand at the start of a line. -/
def atLineStart (t : Text) : Bool :=
  match t.reverse with
  | [] => true
  | 10 :: _ => true
  | 0xA8 :: 0x80 :: 0xE2 :: _ => true
  | 0xA9 :: 0x80 :: 0xE2 :: _ => true
  | _ => false

/-- Ends the line, unless that has happened. -/
def endLine (t : Text) : Text := if atLineStart t then t else t ++ "\n"

mutual

/-- A value behind a key or a dash, in a collection with the given indentation. -/
def Layout.write (indent : Nat) : Layout → Text
  | .scalar t => endLine (" " ++ writeScalar false (indent + 2) t)
  | .flow items =>
    " [" ++ Text.join ", " (items.map (writeScalar true (indent + 4))) ++ "]\n"
  | .sequence [] => " []\n"
  | .sequence items => "\n" ++ writeItems (indent + 2) items
  | .mapping [] => " \x7b\x7d\n"
  | .mapping pairs => "\n" ++ writePairs (indent + 2) true pairs

/-- The items of a sequence, each behind a dash. -/
def writeItems (indent : Nat) : List Layout → Text
  | [] => []
  | .mapping (p :: pairs) :: rest =>
    Text.spaces indent ++ "- " ++ writePairs (indent + 2) false (p :: pairs) ++
      writeItems indent rest
  | item :: rest =>
    Text.spaces indent ++ "-" ++ item.write indent ++ writeItems indent rest

/-- The pairs of a mapping. The first may stand behind a dash. -/
def writePairs (indent : Nat) (indentFirst : Bool) : List (Text × Layout) → Text
  | [] => []
  | (k, v) :: rest =>
    (if indentFirst then Text.spaces indent else []) ++ k ++ ":" ++ v.write indent ++
      writePairs indent true rest

end

end FlowGraph.Yaml
