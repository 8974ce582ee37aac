import FlowGraph.Files
import FlowGraph.Options
import FlowGraph.Text.Bool
import FlowGraph.Yaml.Decode

/-! Settings from the environment and from a file. What the environment sets goes over what
the file sets. -/

namespace FlowGraph

inductive OptionsError where
  | unreadable (path : Text) (cause : FileError)
  | unparsable (path : Text) (cause : Yaml.Error)
  /-- A variable of the environment has a value that it cannot have. -/
  | invalidVariable (name : Text)
deriving DecidableEq, Repr

def OptionsError.message : OptionsError → Text
  | unreadable p e => "read config file " ++ p ++ ": " ++ e.message
  | unparsable p e => "parse config file " ++ p ++ ": " ++ e.message
  | invalidVariable n => "cfgopt: invalid value for " ++ n

/-- The variables of an environment. -/
abbrev Environment := List (Text × Text)

namespace Environment

/-- A value that is read from a variable. An empty variable counts as missing. -/
def parsed {α : Type} (env : Environment) (name : Text) (read : Text → Option α) (old : α) :
    Except OptionsError α :=
  match env.lookup name with
  | none => .ok old
  | some v =>
    if v.isEmpty then .ok old
    else match read v with
      | some a => .ok a
      | none => .error (.invalidVariable name)

end Environment

namespace Options

/-- Settings with those of the environment over them. An empty pattern counts. -/
def override (o : Options) (env : Environment) : Except OptionsError Options := do
  let verify ← env.parsed "CFGOPT_VERIFY" Text.parseBool? o.verify
  let level ← env.parsed "CFGOPT_LOG_LEVEL" (fun t => (Level.parse t).toOption) o.level
  return { verify, level
           dumpBefore := (env.lookup ("CFGOPT_DUMP_BEFORE" : Text)).getD o.dumpBefore
           dumpAfter := (env.lookup ("CFGOPT_DUMP_AFTER" : Text)).getD o.dumpAfter }

/-- The settings of an environment alone. -/
def ofEnvironment (env : Environment) : Except OptionsError Options := override {} env

open Yaml Decode in
def yaml : Record Options where
  type := "opts.Options"
  fields :=
    [field "verify" bool fun s v => { s with verify := v },
     field "dump_before" text fun s v => { s with dumpBefore := v },
     field "dump_after" text fun s v => { s with dumpAfter := v },
     field "log_level" (parsed "slog.Level" fun t => (Level.parse t).mapError LevelError.message)
       fun s v => { s with level := v }]

/-- The settings of a file, with those of the environment over them. -/
def load (files : Files) (env : Environment) (path : Text) : Except OptionsError Options := do
  let input ← (files.read path).mapError (.unreadable path)
  let o ← (Yaml.Decode.run yaml {} input).mapError (.unparsable path)
  o.override env

end Options

end FlowGraph
