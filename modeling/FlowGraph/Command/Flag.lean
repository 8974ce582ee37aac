import FlowGraph.Text.Bool
import FlowGraph.Text.Quoted

/-! Flags on a command line. A flag has a long name after two dashes and perhaps a letter after
one. Switches need no value. Flags and plain arguments may be mixed, and all that follows two
dashes alone is plain. -/

namespace FlowGraph

structure Flag where
  name : Text
  letter : Option UInt8 := none
  isSwitch : Bool := false
  default : Text := []
  usage : Text
deriving DecidableEq, Repr

inductive FlagError where
  | badForm (argument : Text)
  | unknownName (name : Text)
  | unknownLetter (letter : UInt8) (group : Text)
  | missingValue (name : Text)
  | missingLetterValue (letter : UInt8) (group : Text)
  | badSwitch (flag : Flag) (value : Text)
deriving DecidableEq, Repr

/-- Values given to flags, the last one first. -/
abbrev Settings := List (Text × Text)

namespace Flag

/-- A flag with its dashes. -/
def title (f : Flag) : Text :=
  match f.letter with
  | some l => "-" ++ [l] ++ ", --" ++ f.name
  | none => "--" ++ f.name

/-- A letter between single quotes. Of a byte outside ASCII the first byte of its two-byte form
is shown. -/
def quotedLetter (b : UInt8) : Text :=
  let c : Char := if b < 0x80 then Char.ofNat b.toNat else if b < 0xC0 then 'Â' else 'Ã'
  let inner : Text :=
    if c = '\'' then "\\'" else if c = '"' then "\"" else (Text.Rune.char c).quoted
  "'" ++ inner ++ "'"

def find? (flags : List Flag) (name : Text) : Option Flag := flags.find? (·.name = name)

def ofLetter? (flags : List Flag) (l : UInt8) : Option Flag := flags.find? (·.letter = some l)

/-- A value for a flag, if the flag takes it. -/
def assign (f : Flag) (value : Text) : Except FlagError (Text × Text) :=
  if f.isSwitch && (Text.parseBool? value).isNone then .error (.badSwitch f value)
  else .ok (f.name, value)

end Flag

def FlagError.message : FlagError → Text
  | badForm a => "bad flag syntax: " ++ a
  | unknownName n => "unknown flag: --" ++ n
  | unknownLetter l g => "unknown shorthand flag: " ++ Flag.quotedLetter l ++ " in -" ++ g
  | missingValue n => "flag needs an argument: --" ++ n
  | missingLetterValue l g => "flag needs an argument: " ++ Flag.quotedLetter l ++ " in -" ++ g
  | badSwitch f v => "invalid argument " ++ Text.quoted v ++ " for " ++ Text.quoted f.title ++
      " flag: strconv.ParseBool: parsing " ++ Text.quoted v ++ ": invalid syntax"

namespace Settings

def value (s : Settings) (name fallback : Text) : Text := (s.lookup name).getD fallback

/-- Whether a switch is on. -/
def isOn (s : Settings) (name : Text) : Bool :=
  ((s.lookup name).bind Text.parseBool?).getD false

end Settings

namespace Flag

/-- What an argument holds, and whether the argument after it was used up as a value. -/
structure Reading where
  settings : Settings := []
  plain : List Text := []
  usesNext : Bool := false

/-- Reads what follows two dashes: a name, and a value after an equals sign or in the next
argument. -/
def readName (flags : List Flag) (argument body : Text) (next : Option Text) :
    Except FlagError Reading := do
  if body.head? = some 45 || body.head? = some 61 then throw (.badForm argument)
  let name := body.takeWhile (· ≠ 61)
  let some f := find? flags name | throw (.unknownName name)
  match body.dropWhile (· ≠ 61), next with
  | _ :: value, _ => return { settings := [← f.assign value] }
  | [], next =>
    if f.isSwitch then return { settings := [← f.assign "true"] }
    match next with
    | some value => return { settings := [← f.assign value], usesNext := true }
    | none => throw (.missingValue name)

/-- Reads what follows one dash: letters of switches, and at the end perhaps the letter of a
flag with a value, which follows at once, after an equals sign or in the next argument. Groups
that begin like flags of a test program are passed over. -/
def readLetters (flags : List Flag) (next : Option Text) (done : Settings) :
    Text → Except FlagError Reading
  | [] => .ok { settings := done }
  | l :: rest => do
    if (Text.dropStart? "test." (l :: rest)).isSome then return { settings := done }
    let some f := ofLetter? flags l | throw (.unknownLetter l (l :: rest))
    match rest with
    | 61 :: b :: value => return { settings := (← f.assign (b :: value)) :: done }
    | _ =>
      if f.isSwitch then readLetters flags next ((← f.assign "true") :: done) rest
      else if rest ≠ [] then return { settings := (← f.assign rest) :: done }
      else match next with
        | some value => return { settings := (← f.assign value) :: done, usesNext := true }
        | none => throw (.missingLetterValue l [l])

/-- Reads one argument. -/
def read (flags : List Flag) (argument : Text) (next : Option Text) : Except FlagError Reading :=
  match argument with
  | 45 :: 45 :: body => readName flags argument body next
  | 45 :: l :: rest => readLetters flags next [] (l :: rest)
  | _ => .ok { plain := [argument] }

/-- Reads all arguments. The answer has the values of flags and the plain arguments. -/
def readAll (flags : List Flag) (settings : Settings) (plain : List Text) :
    List Text → Except FlagError (Settings × List Text)
  | [] => .ok (settings, plain)
  | a :: rest =>
    if a = "--" then .ok (settings, plain ++ rest)
    else match read flags a rest.head? with
      | .error e => .error e
      | .ok r =>
        readAll flags (r.settings ++ settings) (plain ++ r.plain) (rest.drop r.usesNext.toNat)
termination_by args => args.length
decreasing_by rw [List.length_drop, List.length_cons]; omega

/-- Whether an argument without an equals sign is a flag that takes the next argument as its
value. An unknown flag counts as one. -/
def takesNext (flags : List Flag) (argument : Text) : Bool :=
  !argument.contains 61 && match argument with
    | 45 :: 45 :: name => !((find? flags name).any (·.isSwitch))
    | [45, l] => !((ofLetter? flags l).any (·.isSwitch))
    | _ => false

end Flag

end FlowGraph
