import FlowGraph.Command
import FlowGraph.Document.Error
import FlowGraph.Options.Load
import FlowGraph.Pass

/-! Why a command failed. -/

namespace FlowGraph

inductive CommandError where
  | unknownCommand (word : Text)
  | flag (cause : FlagError)
  | argumentCount (wanted given : Nat)
  | options (cause : OptionsError)
  | logLevel (text : Text) (cause : LevelError)
  | output (cause : FileError)
  | fixtureFile (cause : FileError)
  | fixture (cause : FixtureError)
  | optimize (func : Text) (cause : RunError)
  | verify (cause : VerifyError)
  | unknownFormat (name : Text)
  /-- The output has no room. The text says what was being done. -/
  | full (doing : Text)
  | fault (cause : Fault)
deriving DecidableEq, Repr

namespace CommandError

def suggestionText (word : Text) : Text :=
  let line (name : Text) : Text := "\t" ++ name ++ "\n"
  match Command.suggestions word with
  | [] => []
  | names => Text.ofString "\n\nDid you mean this?\n" ++ names.flatMap line

def message : CommandError → Text
  | unknownCommand w =>
    "unknown command " ++ Text.quoted w ++ " for " ++ Text.quoted Command.program ++
      suggestionText w
  | flag e => e.message
  | argumentCount w g => "accepts " ++ Text.ofNat w ++ " arg(s), received " ++ Text.ofNat g
  | options e => e.message
  | logLevel t e => "invalid log level " ++ Text.quoted t ++ ": " ++ e.message
  | output e => "create output: " ++ e.message
  | fixtureFile e => "read fixture: " ++ e.message
  | fixture e => e.message
  | optimize f e => "optimize " ++ f ++ ": " ++ e.message
  | verify e => e.message
  | unknownFormat n => "unknown format: " ++ n ++ " (use text, dot, yaml, msgpack or spew)"
  | full d => d ++ Sink.fullMessage
  | fault f => f.message

/-- Failures that end the program at once, with no word of its own about them. -/
def isCrash : CommandError → Bool
  | options (.invalidVariable _) => true
  | fault _ => true
  | _ => false

/-- What is written about a failure. -/
def report (e : CommandError) : Text :=
  if e.isCrash then []
  else match e with
    | unknownCommand _ =>
      "Error: " ++ e.message ++ "\nRun '" ++ Command.program ++ " --help' for usage.\n"
    | _ => "Error: " ++ e.message ++ "\n"

end CommandError

end FlowGraph
