import FlowGraph.Yaml.Token
import FlowGraph.Yaml.Token.Scalar

/-! From characters to tokens. A scalar, an alias, an anchor, a tag or a flow collection may
turn out to be a key only when the colon behind it is seen, so the place of each such token is
remembered, and the signs that a key needs are put in front of it later. -/

namespace FlowGraph.Yaml

/-- A token that may turn out to be a key. -/
structure PossibleKey where
  /-- Nothing but a key can stand here. -/
  required : Bool
  /-- The number of its first token. -/
  token : Nat
  mark : Mark
deriving Repr

structure Scanner where
  cursor : Cursor
  tokens : Array Token := #[]
  /-- The column of the innermost block collection plus one, or 0 outside of all. -/
  indent : Nat := 0
  /-- The indentations around it. -/
  indents : List Nat := []
  /-- Whether a key may start here. -/
  keyAllowed : Bool := true
  /-- The possible key of each open flow collection, the innermost first, and of the block
  context last. -/
  keys : List (Option PossibleKey) := [none]
  ended : Bool := false
deriving Repr

namespace Scanner

/-- Scanning steps. A step without result found a text that is no token. -/
abbrev M := StateT Scanner Option

def mark : M Mark := return (← get).cursor.mark

def rest : M (List Char) := return (← get).cursor.rest

def moveTo (c : Cursor) : M Unit := modify fun s => { s with cursor := c }

def move (f : Cursor → Cursor) : M Unit := modify fun s => { s with cursor := f s.cursor }

def inFlow : M Bool := return (← get).keys.length ≠ 1

def allowKey (b : Bool) : M Unit := modify fun s => { s with keyAllowed := b }

def push (kind : TokenKind) (m : Mark) : M Unit :=
  modify fun s => { s with tokens := s.tokens.push ⟨kind, m.line + 1⟩ }

/-- Puts a token in front of the one with the given number. -/
def insertAt (n : Nat) (kind : TokenKind) (m : Mark) : M Unit :=
  modify fun s => { s with tokens := s.tokens.insertIdxIfInBounds n ⟨kind, m.line + 1⟩ }

/-! Possible keys. -/

def currentKey : M (Option PossibleKey) := return (← get).keys.head?.join

def setKey (k : Option PossibleKey) : M Unit :=
  modify fun s => { s with keys := k :: s.keys.tail }

/-- Whether the colon of a key would come too late now: keys end on their line and within
1024 characters. -/
def PossibleKey.isStale (k : PossibleKey) (m : Mark) : Bool :=
  k.mark.line < m.line || k.mark.index + 1024 < m.index

/-- Gives a possible key up. A required key cannot be given up. -/
def dropKey : M Unit := do
  match ← currentKey with
  | some k => if k.required then failure else setKey none
  | none => pure ()

/-- Remembers that the next token may be a key. -/
def saveKey : M Unit := do
  let s ← get
  if s.keyAllowed then
    let m := s.cursor.mark
    let required := !(← inFlow) && s.indent = m.column + 1
    dropKey
    setKey (some ⟨required, s.tokens.size, m⟩)

/-! Indentation. -/

/-- Opens a block collection at a column, unless one is open there. Its sign is put in front
of the token with the given number, or at the end. -/
def rollIndent (column : Nat) (before : Option Nat) (kind : TokenKind) (m : Mark) : M Unit := do
  let s ← get
  if !(← inFlow) && s.indent < column + 1 then
    set { s with indents := s.indent :: s.indents, indent := column + 1 }
    match before with
    | some n => insertAt n kind m
    | none => push kind m

/-- Closes the block collections that are further in than a limit. -/
def closeBlocks (limit : Nat) (m : Mark) : (indents : List Nat) → M Unit
  | [] => pure ()
  | outer :: more => do
    if (← get).indent > limit then
      push .blockEnd m
      modify fun s => { s with indent := outer, indents := more }
      closeBlocks limit m more

def unrollIndent (limit : Nat) : M Unit := do
  if !(← inFlow) then closeBlocks limit (← mark) (← get).indents

/-! Blanks and comments. -/

/-- The rest of a comment and the comment lines that follow it, with only blanks and line
breaks between them. The end of the last comment line is not passed over. -/
def skipComments : (fuel : Nat) → Cursor → Cursor
  | 0, c => c
  | fuel + 1, c =>
    let c := c.skipLine
    let between := c.rest.takeWhile fun x => isBlank x || x = '\n'
    if !between.isEmpty && (c.rest.drop between.length).head? = some '#' then
      let next : Cursor := between.foldl
        (fun c x => if x = '\n' then c.skipBreak else c.skip 1) c
      skipComments fuel next
    else c

/-- Passes over blanks, comments and line breaks up to the next token. A tab is no blank
where a key may start. -/
def skipToToken : (fuel : Nat) → M Unit
  | 0 => pure ()
  | fuel + 1 => do
    move fun c => if c.mark.column = 0 && c.startsWith ['\ufeff'] then c.skip 1 else c
    let tabs := (← inFlow) || !(← get).keyAllowed
    move (·.skipWhile fun c => c = ' ' || (tabs && c = '\t'))
    move fun c => if c.startsWith ['#'] then skipComments c.rest.length c else c
    match ← rest with
    | b :: _ =>
      if isBreak b then
        move (·.skipBreak)
        if !(← inFlow) then allowKey true
        skipToToken fuel
    | [] => pure ()

/-- A comment behind a token on the same line. -/
def skipLineComment (c : Cursor) : Cursor :=
  let d := c.skipBlanks
  if d.startsWith ['#'] then d.skipLine else c

/-! Single tokens. -/

/-- A sign of one character. -/
def sign (kind : TokenKind) : M Unit := do
  let m ← mark
  move (·.skip 1)
  push kind m

def streamEnd : M Unit := do
  modify fun s =>
    let m := s.cursor.mark
    if m.column = 0 then s else { s with cursor := ⟨[], { m with line := m.line + 1, column := 0 }⟩ }
  unrollIndent 0
  dropKey
  allowKey false
  push .streamEnd (← mark)
  modify fun s => { s with ended := true }

def documentMarker (kind : TokenKind) : M Unit := do
  unrollIndent 0
  dropKey
  allowKey false
  let m ← mark
  move (·.skip 3)
  push kind m

def flowStart (kind : TokenKind) : M Unit := do
  saveKey
  modify fun s => { s with keys := none :: s.keys }
  allowKey true
  sign kind

def flowEnd (kind : TokenKind) : M Unit := do
  dropKey
  modify fun s => { s with keys := match s.keys with
    | _ :: k :: more => k :: more
    | ks => ks }
  allowKey false
  sign kind

def flowEntry : M Unit := do
  dropKey
  allowKey true
  sign .flowEntry

def blockEntry : M Unit := do
  if !(← inFlow) then
    if !(← get).keyAllowed then failure
    let m ← mark
    rollIndent m.column none .blockSequenceStart m
  dropKey
  allowKey true
  sign .blockEntry

/-- A question mark in front of a key. -/
def explicitKey : M Unit := do
  let flow ← inFlow
  if !flow then
    if !(← get).keyAllowed then failure
    let m ← mark
    rollIndent m.column none .blockMappingStart m
  dropKey
  allowKey !flow
  sign .key

/-- The colon behind a key. -/
def colon : M Unit := do
  let m ← mark
  match ← currentKey with
  | some k =>
    if PossibleKey.isStale k m then
      if k.required then failure
      setKey none
      withoutKey
    else
      insertAt k.token .key k.mark
      rollIndent k.mark.column (some k.token) .blockMappingStart k.mark
      setKey none
      allowKey false
  | none => withoutKey
  sign .value
where
  withoutKey : M Unit := do
    let flow ← inFlow
    if !flow then
      if !(← get).keyAllowed then failure
      let m ← mark
      rollIndent m.column none .blockMappingStart m
    allowKey !flow

/-- The name of an anchor or an alias. -/
def anchor (make : Text → TokenKind) : M Unit := do
  saveKey
  allowKey false
  let m ← mark
  move (·.skip 1)
  let name := (← rest).takeWhile isWord
  move (·.skip name.length)
  let after ← rest
  let ends := atGap after ||
    after.head?.any (· ∈ ['?', ':', ',', ']', '}', '%', '@', '\x60'])
  if name.isEmpty || !ends then failure
  push (make (Text.ofChars name)) m

/-- Characters of a tag. -/
def isTagChar (c : Char) : Bool :=
  isWord c || c ∈ [';', '/', '?', ':', '@', '&', '=', '+', '$', ',', '.', '%', '!', '~', '*',
    '\'', '(', ')', '[', ']']

/-- One byte written as a percent sign and two digits. -/
def percentByte : M UInt8 := do
  match ← rest with
  | '%' :: a :: b :: _ =>
    match hexValue? a, hexValue? b with
    | some x, some y =>
      move (·.skip 3)
      return (x * 16 + y).toUInt8
    | _, _ => failure
  | _ => failure

def tailBytes : Nat → M Text
  | 0 => return []
  | n + 1 => do
    let b ← percentByte
    if b &&& 0xC0 ≠ 0x80 then failure
    return b :: (← tailBytes n)

/-- A character written by its bytes. -/
def percentChar : M Text := do
  let b ← percentByte
  let more ←
    if b &&& 0x80 = 0 then pure 0
    else if b &&& 0xE0 = 0xC0 then pure 1
    else if b &&& 0xF0 = 0xE0 then pure 2
    else if b &&& 0xF8 = 0xF0 then pure 3
    else failure
  return b :: (← tailBytes more)

def tagText : (fuel : Nat) → M Text
  | 0 => return []
  | fuel + 1 => do
    match ← rest with
    | c :: _ =>
      if c = '%' then
        let t ← percentChar
        return t ++ (← tagText fuel)
      else if isTagChar c then
        move (·.skip 1)
        return Text.ofChar c ++ (← tagText fuel)
      else return []
    | [] => return []

/-- The characters of a tag from here on. -/
def tagRest : M Text := do tagText (← rest).length

/-- A handle of a tag: an exclamation mark, a word, and another mark if there is one. -/
def handle : M (List Char) := do
  match ← rest with
  | '!' :: more =>
    let word := more.takeWhile isWord
    let closed := (more.drop word.length).head? = some '!'
    let h := '!' :: word ++ if closed then ['!'] else []
    move (·.skip h.length)
    return h
  | _ => failure

def tag : M Unit := do
  saveKey
  allowKey false
  let m ← mark
  match ← rest with
  | '!' :: '<' :: _ =>
    move (·.skip 2)
    let t ← tagRest
    if t.isEmpty || (← rest).head? ≠ some '>' then failure
    move (·.skip 1)
    push (.tag [] t) m
  | _ =>
    let h ← handle
    if 1 < h.length && h.getLast? = some '!' then
      let t ← tagRest
      if t.isEmpty then failure
      push (.tag (Text.ofChars h) t) m
    else
      let t := Text.ofChars h.tail ++ (← tagRest)
      push (if t.isEmpty then .tag [] "!" else .tag "!" t) m
  if !atGap (← rest) then failure

/-- Up to two digits of a version. -/
def versionNumber : M Nat := do
  let ds := (← rest).takeWhile Char.isDigit
  if ds.isEmpty || 2 < ds.length then failure
  move (·.skip ds.length)
  return ds.foldl (fun n d => n * 10 + (d.toNat - 48)) 0

def directive : M Unit := do
  unrollIndent 0
  dropKey
  allowKey false
  let m ← mark
  move (·.skip 1)
  let name := (← rest).takeWhile isWord
  move (·.skip name.length)
  if name.isEmpty || !atGap (← rest) then failure
  move (·.skipBlanks)
  if name = "YAML".toList then
    let major ← versionNumber
    if (← rest).head? ≠ some '.' then failure
    move (·.skip 1)
    let minor ← versionNumber
    push (.version major minor) m
  else if name = "TAG".toList then
    let h ← handle
    if h.getLast? ≠ some '!' then failure
    if !(← rest).head?.any isBlank then failure
    move (·.skipBlanks)
    let t ← tagRest
    if t.isEmpty || !atGap (← rest) then failure
    push (.tagHandle (Text.ofChars h) t) m
  else failure
  move (·.skipBlanks)
  move fun c => if c.startsWith ['#'] then c.skipLine else c
  if !atLineEnd (← rest) then failure
  move (·.skipBreak)

/-- A scalar that was read in one of the forms. The answer says whether its line has ended. -/
def scalar (plain : Bool) (m : Mark) (r : Option Scanned) : M Bool := do
  match r with
  | none => failure
  | some s =>
    moveTo s.after
    push (.scalar plain (Text.ofChars s.text)) m
    return s.lineEnded

def quoted (read : Mark → List Char → Option Scanned) : M Bool := do
  saveKey
  allowKey false
  let m ← mark
  scalar false m (read (m.step 1) ((← rest).drop 1))

def block (literal : Bool) : M Bool := do
  dropKey
  allowKey true
  let s ← get
  scalar false s.cursor.mark (blockScalar literal s.indent (s.cursor.skip 1))

def plain : M Bool := do
  saveKey
  allowKey false
  let s ← get
  let ended ← scalar true s.cursor.mark
    (plainScalar (← inFlow) s.indent .none [] s.cursor.mark s.cursor.rest)
  if ended then allowKey true
  return ended

/-- Whether a plain scalar can start here. -/
def startsPlain (flow : Bool) (c : Char) (more : List Char) : Bool :=
  !(isBlank c || isBreak c || c ∈ ['-', '?', ':', ',', '[', ']', '{', '}', '#', '&', '*', '!',
      '|', '>', '\'', '"', '%', '@', '\x60']) ||
    c = '-' || (!flow && (c = '?' || c = ':') && !atGap more)

/-- The token that starts with a character. The answer says whether its line has ended. -/
def token (c : Char) (more : List Char) : M Bool := do
  let flow ← inFlow
  let ongoing (a : M Unit) : M Bool := do
    a
    return false
  if c = '[' then ongoing (flowStart .flowSequenceStart)
  else if c = '{' then ongoing (flowStart .flowMappingStart)
  else if c = ']' then ongoing (flowEnd .flowSequenceEnd)
  else if c = '}' then ongoing (flowEnd .flowMappingEnd)
  else if c = ',' then ongoing flowEntry
  else if c = '-' && atGap more then ongoing blockEntry
  else if c = '?' && (flow || atGap more) then ongoing explicitKey
  else if c = ':' && (flow || atGap more) then ongoing colon
  else if c = '*' then ongoing (anchor .alias)
  else if c = '&' then ongoing (anchor .anchor)
  else if c = '!' then ongoing tag
  else if c = '|' && !flow then block true
  else if c = '>' && !flow then block false
  else if c = '\'' then quoted (singleQuoted .none [])
  else if c = '"' then quoted (doubleQuoted .outside .none [])
  else if startsPlain flow c more then plain
  else failure

/-- The next token, with the ends of block collections in front of it and a comment on the
same line behind it. A comment behind the sign of an entry is left for later. -/
def next : M Unit := do
  skipToToken ((← rest).length + 1)
  unrollIndent ((← mark).column + 1)
  let c := (← get).cursor
  match c.rest with
  | [] => streamEnd
  | x :: more =>
    if c.mark.column = 0 && x = '%' then directive
    else if c.atMarker '-' then documentMarker .documentStart
    else if c.atMarker '.' then documentMarker .documentEnd
    else
      let lineEnded ← token x more
      if !lineEnded && (← get).tokens.back?.map (·.kind) ≠ some .blockEntry then
        move skipLineComment

/-- Reads tokens up to the end, or up to what is no token. Every token takes a character. -/
def all : (fuel : Nat) → Scanner → Scanner
  | 0, s => s
  | fuel + 1, s =>
    if s.ended then s
    else match next.run s with
      | some (_, s) => all fuel s
      | none => s

/-- How many tokens can be relied on. When the scan broke off, the last two are in doubt, and
so are those from a token on that may still become a key. -/
def reliable (s : Scanner) : Nat :=
  if s.ended then s.tokens.size
  else s.keys.foldl (fun n k =>
    match k with
    | some k =>
      if k.required || !PossibleKey.isStale k s.cursor.mark then min n k.token else n
    | none => n) (s.tokens.size - 2)

end Scanner

/-- The tokens of a text, as far as they can be relied on. Only a list that ends with the end
of the stream is complete. -/
def scan (cs : List Char) : List Token :=
  let s := Scanner.all (cs.length + 2)
    { cursor := ⟨cs, {}⟩, tokens := #[⟨.streamStart, 1⟩] }
  s.tokens.toList.take s.reliable

end FlowGraph.Yaml
