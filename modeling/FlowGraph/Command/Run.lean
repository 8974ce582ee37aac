import FlowGraph.Command.Error
import FlowGraph.Command.Format
import FlowGraph.Document.Read
import FlowGraph.Stats.Table

/-! Running a command line. It reads and writes the files and the two streams of a shell; dumps
and log lines go to the stream for errors. -/

namespace FlowGraph

/-- The files and streams that a command works on. -/
structure Shell where
  files : Files := {}
  out : Sink := {}
  err : Sink := {}
deriving DecidableEq, Repr

/-- What is settled before the command line is looked at. -/
structure Setting where
  env : Environment := []
  /-- The options where no file is named. -/
  defaults : Options := {}
  /-- Whether remarks on a wrong help topic go to the stream for output. -/
  remarksOnOut : Bool := true
  printers : Printers := .plain

namespace Command

abbrev M := ExceptT CommandError (StateM Shell)

def lift {ε α : Type} (cause : ε → CommandError) : Except ε α → M α
  | .ok a => pure a
  | .error e => throw (cause e)

/-- Writes as far as there is room. The answer says whether all of it was taken. -/
def print (t : Text) : M Bool := modifyGet fun s =>
  let (out, ok) := s.out.write t
  (ok, { s with out })

def printError (t : Text) : M Unit := modify fun s => { s with err := (s.err.write t).1 }

/-- The options for a command: those of a file or of the environment, and what flags say over
them. -/
def configure (setting : Setting) (flags : Settings) : M Options := do
  let path := flags.value "config" []
  let files := (← get).files
  let o ← if path.isEmpty then pure setting.defaults
    else lift .options (Options.load files setting.env path)
  let o := if (flags.lookup ("verify" : Text)).isSome then { o with verify := flags.isOn "verify" }
    else o
  match flags.lookup ("log-level" : Text) with
  | none => return o
  | some t => return { o with level := ← lift (.logLevel t) (Level.parse t) }

/-- The functions of a fixture, and the counters after loading them. -/
def load (path : Text) : M (List Func × Stats) := do
  let files := (← get).files
  let input ← lift .fixtureFile (files.read path)
  let (r, counts) := (Document.load path input).run {}
  return (← lift .fixture r, counts)

def runError (fn : Func) : RunError → CommandError
  | .fault f => .fault f
  | e => .optimize fn.name e

def optimizeFunc (o : Options) (fn : Func) (counts : Stats) : M (Func × Stats) := do
  if o.level ≤ Level.debug then
    printError (Log.line Level.debug "optimizing"
      [("func", fn.name), ("blocks", Text.ofNat fn.blocks.length)])
  let s ← get
  let (r, run) := (Run.optimize o).run { fn, stats := counts, out := { dump := s.err } }
  set { s with err := run.out.dump }
  lift (runError fn) r
  return (run.fn, run.stats)

/-- Optimizes functions one after the other. -/
def optimizeAll (o : Options) : List Func → Stats → M (List Func × Stats)
  | [], counts => return ([], counts)
  | fn :: rest, counts => do
    let (fn, counts) ← optimizeFunc o fn counts
    let (rest, counts) ← optimizeAll o rest counts
    return (fn :: rest, counts)

def optimize (o : Options) (path : Text) : M (List Func × Stats) := do
  let (fns, counts) ← load path
  optimizeAll o fns counts

/-- Makes the output file, if one is named. -/
def openOutput (path : Text) : M (Option Place) := do
  if path.isEmpty then return none
  let s ← get
  let (files, place) ← lift .output (s.files.create path)
  set { s with files }
  return some place

/-- Writes functions to the output file, or to the stream if there is none. -/
def write (printers : Printers) (name : Text) (target : Option Place) (fns : List Func) :
    M Unit := do
  let some format := Format.ofName? name | throw (.unknownFormat name)
  let t ← lift .fault (format.render printers fns)
  match target with
  | some place => modify fun s => { s with files := s.files.put place t }
  | none =>
    let ok ← print t
    if !ok && format.mustFit then throw (.full format.doing)

/-- The output file is made before the fixture is read. -/
def runSimplify (printers : Printers) (o : Options) (flags : Settings) (path : Text) :
    M Unit := do
  let o := { o with dumpBefore := flags.value "dump-before" o.dumpBefore
                    dumpAfter := flags.value "dump-after" o.dumpAfter }
  let target ← openOutput (flags.value "output" [])
  let (fns, _) ← optimize o path
  write printers (flags.value "format" "text") target fns

/-- Checks functions up to the first that is not consistent. -/
def runVerify (path : Text) : M Unit := do
  let (fns, _) ← load path
  fns.forM fun fn => do
    match ← lift .fault fn.verify with
    | some e => throw (.verify e)
    | none => discard (print (fn.name ++ ": ok\n"))

def runStats (o : Options) (path : Text) : M Unit := do
  let (_, counts) ← optimize o path
  if !(← print counts.table) then throw (.full [])

/-- A topic between back quotes, or between double quotes if those cannot hold it. -/
def quotedTopic (t : Text) : Text :=
  let plain : Text.Rune → Bool
    | .char c => (' ' ≤ c || c = '\t') && c ≠ '\x60' && c ≠ '\x7f' && c ≠ '\ufeff'
    | .bad _ => false
  if t.runes.all plain then "\x60" ++ t ++ "\x60" else Text.quoted t

def runHelp (setting : Setting) (topic : List Text) : M Unit := do
  match ofLine topic with
  | .ok (c, _) => discard (print c.helpText)
  | .error _ =>
    let remark := "Unknown help topic [" ++ Text.join " " (topic.map quotedTopic) ++ "]\n" ++
      root.usage false
    if setting.remarksOnOut then discard (print remark) else printError remark

def versionText : Text := program ++ " version dev\n"

/-- Does the work of a command. -/
def perform (setting : Setting) (c : Command) (o : Options) (flags : Settings)
    (args : List Text) : M Unit :=
  match c, args with
  | simplify, [path] => runSimplify setting.printers o flags path
  | verify, [path] => runVerify path
  | stats, [path] => runStats o path
  | help, topic => runHelp setting topic
  | c, _ => discard (print c.helpText)

/-- Runs a command on its arguments. Requests for help and for the version come before all
else. -/
def run (setting : Setting) (c : Command) (args : List Text) : M Unit := do
  let (flags, plain) ← lift .flag (Flag.readAll c.flags [] [] args)
  if flags.isOn "help" || (c = root && !flags.isOn "version") then discard (print c.helpText)
  else if c = root then
    if !(← print versionText) then throw (.full [])
  else
    if let some n := c.arity then
      if plain.length ≠ n then throw (.argumentCount n plain.length)
    let o ← configure setting flags
    perform setting c o flags plain

/-- Runs a command line. -/
def runLine (setting : Setting) (args : List Text) : M Unit := do
  let (c, args) ← lift .unknownCommand (ofLine args)
  run setting c args

/-- Runs a command line and reports its failure. -/
def execute (setting : Setting) (args : List Text) (shell : Shell) : Option CommandError × Shell :=
  match (runLine setting args).run shell with
  | (.ok (), s) => (none, s)
  | (.error e, s) => (some e, { s with err := (s.err.write e.report).1 })

/-- Runs the program in an environment. A crash leaves nothing on the stream for errors but its
message. The answer has the exit code. -/
def launch (env : Environment) (args : List Text) (shell : Shell) : Nat × Shell :=
  let crash (e : CommandError) (s : Shell) : Nat × Shell :=
    (2, { s with err := ({ shell.err with written := [] }.write ("panic: " ++ e.message ++ "\n")).1 })
  match Options.ofEnvironment env with
  | .error e => crash (.options e) shell
  | .ok defaults =>
    match execute { env, defaults, remarksOnOut := false } args shell with
    | (none, s) => (0, s)
    | (some e, s) => if e.isCrash then crash e s else (1, s)

end Command

end FlowGraph
