import FlowGraph.Yaml.Char

/-! The three forms of scalars. Line breaks inside plain and quoted scalars are folded: a
single one becomes a space, and of several the first is dropped. -/

namespace FlowGraph.Yaml

/-- A scalar that was read, and what follows. -/
structure Scanned where
  text : List Char
  after : Cursor
  /-- Whether only line breaks and blanks follow the scalar up to here. -/
  lineEnded : Bool := false
deriving Repr

/-- Blanks and line breaks since the last word of a scalar. -/
inductive Gap where
  | none
  | blanks (cs : List Char)
  /-- The first break, unless it was escaped, and the later ones. -/
  | lines (first : Option Char) (more : List Char)
deriving DecidableEq, Repr

namespace Gap

def addBlank (c : Char) : Gap → Gap
  | none => blanks [c]
  | blanks cs => blanks (cs ++ [c])
  | lines f m => lines f m

def addBreak (c : Char) : Gap → Gap
  | none | blanks _ => lines (breakText c) []
  | lines f m => lines f (m ++ [breakText c])

/-- What the gap stands for in the value. -/
def folded : Gap → List Char
  | none => []
  | blanks cs => cs
  | lines (some '\n') [] => [' ']
  | lines (some '\n') m => m
  | lines (some c) m => c :: m
  | lines Option.none m => m

def hasBreak : Gap → Bool
  | lines .. => true
  | _ => false

end Gap

/-- Whether a character ends a plain scalar. -/
def endsPlain (flow : Bool) (c : Char) (rest : List Char) : Bool :=
  (c = ':' && atGap rest) || (flow && c ∈ [',', '?', '[', ']', '{', '}'])

/-- Reads a plain scalar. After a gap, a comment, a document marker or a smaller indentation
ends it. There is no result if a tab stands in the indentation. -/
def plainScalar (flow : Bool) (indent : Nat) (gap : Gap) (acc : List Char) (mark : Mark) :
    List Char → Option Scanned
  | [] => some ⟨acc, ⟨[], mark⟩, gap.hasBreak⟩
  | c :: rest =>
    if isBlank c then
      if c = '\t' && gap.hasBreak && mark.column < indent then none
      else plainScalar flow indent (gap.addBlank c) acc (mark.step 1) rest
    else if isBreak c then plainScalar flow indent (gap.addBreak c) acc mark.newline rest
    else
      let here : Cursor := ⟨c :: rest, mark⟩
      let ended := gap ≠ .none &&
        ((!flow && mark.column < indent) || here.atAnyMarker || c = '#')
      if ended || endsPlain flow c rest then some ⟨acc, here, gap.hasBreak⟩
      else plainScalar flow indent .none (acc ++ gap.folded ++ [c]) (mark.step 1) rest

/-- Reads the rest of a single quoted scalar. -/
def singleQuoted (gap : Gap) (acc : List Char) (mark : Mark) : List Char → Option Scanned
  | [] => none
  | '\'' :: '\'' :: rest =>
    singleQuoted .none (acc ++ gap.folded ++ ['\'']) (mark.step 2) rest
  | c :: rest =>
    if isBlank c then singleQuoted (gap.addBlank c) acc (mark.step 1) rest
    else if isBreak c then singleQuoted (gap.addBreak c) acc mark.newline rest
    else if Cursor.atAnyMarker ⟨c :: rest, mark⟩ then none
    else if c = '\'' then some { text := acc ++ gap.folded, after := ⟨rest, mark.step 1⟩ }
    else singleQuoted .none (acc ++ gap.folded ++ [c]) (mark.step 1) rest

/-- The meaning of a one-letter escape. -/
def escape? : Char → Option Char
  | '0' => some '\x00'
  | 'a' => some '\x07'
  | 'b' => some '\x08'
  | 't' | '\t' => some '\t'
  | 'n' => some '\n'
  | 'v' => some '\x0b'
  | 'f' => some '\x0c'
  | 'r' => some '\r'
  | 'e' => some '\x1b'
  | ' ' => some ' '
  | '"' => some '"'
  | '\'' => some '\''
  | '\\' => some '\\'
  | 'N' => some '\x85'
  | '_' => some '\xa0'
  | 'L' => some '\u2028'
  | 'P' => some '\u2029'
  | _ => none

/-- The number of hexadecimal digits behind an escape. -/
def escapeDigits? : Char → Option Nat
  | 'x' => some 2
  | 'u' => some 4
  | 'U' => some 8
  | _ => none

/-- A code point that is a character. -/
def charOf? (n : Nat) : Option Char :=
  if n < 0xD800 ∨ (0xDFFF < n ∧ n ≤ 0x10FFFF) then some (Char.ofNat n) else none

/-- Where the reader of a double quoted scalar stands. -/
inductive Escape where
  | outside
  /-- Behind a backslash. -/
  | letter
  /-- Inside a code, with the digits to come and the value so far. -/
  | code (digits value : Nat)
deriving DecidableEq, Repr

/-- Reads the rest of a double quoted scalar. -/
def doubleQuoted (state : Escape) (gap : Gap) (acc : List Char) (mark : Mark) :
    List Char → Option Scanned
  | [] => none
  | c :: rest =>
    match state with
    | .code digits value =>
      match hexValue? c with
      | none => none
      | some d =>
        if digits ≤ 1 then
          match charOf? (value * 16 + d) with
          | none => none
          | some x => doubleQuoted .outside .none (acc ++ [x]) (mark.step 1) rest
        else doubleQuoted (.code (digits - 1) (value * 16 + d)) .none acc (mark.step 1) rest
    | .letter =>
      if isBreak c then
        doubleQuoted .outside (.lines none []) (acc ++ gap.folded) mark.newline rest
      else match escapeDigits? c with
      | some n => doubleQuoted (.code n 0) .none (acc ++ gap.folded) (mark.step 1) rest
      | none =>
        match escape? c with
        | none => none
        | some x => doubleQuoted .outside .none (acc ++ gap.folded ++ [x]) (mark.step 1) rest
    | .outside =>
      if isBlank c then doubleQuoted .outside (gap.addBlank c) acc (mark.step 1) rest
      else if isBreak c then doubleQuoted .outside (gap.addBreak c) acc mark.newline rest
      else if Cursor.atAnyMarker ⟨c :: rest, mark⟩ then none
      else if c = '"' then some { text := acc ++ gap.folded, after := ⟨rest, mark.step 1⟩ }
      else if c = '\\' then doubleQuoted .letter gap acc (mark.step 1) rest
      else doubleQuoted .outside .none (acc ++ gap.folded ++ [c]) (mark.step 1) rest

/-! Block scalars. -/

inductive Chomp where
  | strip
  | clip
  | keep
deriving DecidableEq, Repr

structure BlockHeader where
  chomp : Chomp := .clip
  /-- The indentation relative to the parent, or 0 if the text decides. -/
  indent : Nat := 0
deriving Repr

def chomp? : Char → Option Chomp
  | '+' => some .keep
  | '-' => some .strip
  | _ => none

/-- Reads the signs behind the indicator, in either order. -/
def blockHeader (c : Cursor) : Option (BlockHeader × Cursor) :=
  match c.rest with
  | a :: rest =>
    match chomp? a with
    | some chomp =>
      match rest with
      | d :: _ =>
        if d = '0' then none
        else if d.isDigit then some (⟨chomp, d.toNat - 48⟩, c.skip 2)
        else some (⟨chomp, 0⟩, c.skip 1)
      | [] => some (⟨chomp, 0⟩, c.skip 1)
    | none =>
      if a = '0' then none
      else if a.isDigit then
        match rest.head?.bind chomp? with
        | some chomp => some (⟨chomp, a.toNat - 48⟩, c.skip 2)
        | none => some (⟨.clip, a.toNat - 48⟩, c.skip 1)
      else some ({}, c)
  | [] => some ({}, c)

/-- Empty lines of a block scalar: their breaks, where the next line has its first character
at or behind the indentation, and the widest indentation seen. An indentation of 0 is not
known yet. -/
structure Breaks where
  breaks : List Char
  widest : Nat
  after : Cursor
deriving Repr

def blockBreaks (indent : Nat) (breaks : List Char) (widest : Nat) (mark : Mark) :
    List Char → Option Breaks
  | [] => some ⟨breaks, max widest mark.column, ⟨[], mark⟩⟩
  | c :: rest =>
    let inside := indent = 0 || mark.column < indent
    if c = ' ' && inside then blockBreaks indent breaks widest (mark.step 1) rest
    else if c = '\t' && inside then none
    else if isBreak c then
      blockBreaks indent (breaks ++ [breakText c]) (max widest mark.column) mark.newline rest
    else some ⟨breaks, max widest mark.column, ⟨c :: rest, mark⟩⟩

/-- The text of a block scalar so far. -/
structure BlockText where
  acc : List Char := []
  /-- The break at the end of the last line with content. -/
  lastBreak : List Char := []
  breaks : List Char
  /-- Whether the last line with content starts with a blank. -/
  indented : Bool := false
deriving Repr

/-- Adds a line with content. In a folded scalar a break between two lines that start with no
blank is folded. -/
def BlockText.addLine (literal : Bool) (t : BlockText) (line : List Char) : List Char × Bool :=
  let blank := match line with
    | c :: _ => isBlank c
    | [] => false
  let between :=
    if !literal && !t.indented && !blank && t.lastBreak.head? = some '\n' then
      if t.breaks.isEmpty then [' '] else []
    else t.lastBreak
  (t.acc ++ between ++ t.breaks ++ line, blank)

/-- Reads the lines of a block scalar. Each takes a character at least. -/
def blockLines (literal : Bool) (indent : Nat) :
    (fuel : Nat) → BlockText → Cursor → Option (BlockText × Cursor)
  | 0, t, c => some (t, c)
  | fuel + 1, t, c =>
    if c.mark.column = indent && !c.rest.isEmpty then do
      let line := c.rest.takeWhile (!isBreak ·)
      let (acc, indented) := t.addLine literal line
      let c := c.skipLine
      let lastBreak := (c.rest.take 1).map breakText
      let c := c.skipBreak
      let b ← blockBreaks indent [] 0 c.mark c.rest
      blockLines literal indent fuel ⟨acc, lastBreak, b.breaks, indented⟩ b.after
    else some (t, c)

/-- Reads a block scalar behind its indicator. `parent` is the indentation around it plus
one. -/
def blockScalar (literal : Bool) (parent : Nat) (c : Cursor) : Option Scanned := do
  let (header, c) ← blockHeader c
  let c := c.skipBlanks
  let c := if c.startsWith ['#'] then c.skipLine else c
  if !atLineEnd c.rest then none
  let c := c.skipBreak
  let fixed := if header.indent = 0 then 0 else (parent - 1) + header.indent
  let b ← blockBreaks fixed [] 0 c.mark c.rest
  let indent := if fixed = 0 then max (max b.widest parent) 1 else fixed
  let (t, after) ← blockLines literal indent c.rest.length { breaks := b.breaks } b.after
  let tail := match header.chomp with
    | .strip => []
    | .clip => t.lastBreak
    | .keep => t.lastBreak ++ t.breaks
  return { text := t.acc ++ tail, after, lineEnded := c.mark.column = 0 }

end FlowGraph.Yaml
