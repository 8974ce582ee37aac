import FlowGraph.Command.Flag

/-! The commands of the program, their flags and their help. -/

namespace FlowGraph

inductive Command where
  /-- No command: the program by itself. -/
  | root
  | simplify
  | verify
  | stats
  | help
deriving DecidableEq, Repr

namespace Command

def program : Text := "cfgopt"

def name : Command → Text
  | root => program
  | simplify => "simplify"
  | verify => "verify"
  | stats => "stats"
  | help => "help"

/-- The command that is called by a name. -/
def ofName? (t : Text) : Option Command := [simplify, verify, stats, help].find? (·.name = t)

/-- What a command does, in a line. -/
def summary : Command → Text
  | root => "cfgopt - control flow graph simplifier"
  | simplify => "Simplify every function of a fixture and print the result"
  | verify => "Check the parent lists of every function of a fixture"
  | stats => "Simplify a fixture and print statistics"
  | help => "Help about any command"

/-- What stands at the head of the help of a command. -/
def about : Command → Text
  | root =>
    "cfgopt loads control flow graphs from YAML fixtures and threads jumps
through blocks that do nothing but jump somewhere else.

Commands:
  simplify    Simplify every function of a fixture and print the result
  verify      Check the parent lists of every function of a fixture
  stats       Simplify a fixture and print statistics

Use \"cfgopt [command] --help\" for more information about a command."
  | simplify =>
    "Loads every function of a YAML fixture, threads jumps through trampoline
blocks and prints the simplified graphs.

Output formats:
  text       block dump, one section per function
  dot        Graphviz digraphs
  yaml       fixture document of the live blocks
  msgpack    binary snapshot of the same document
  spew       debug dump of the same document"
  | help =>
    "Help provides help for any command in the application.
Simply type cfgopt help [path to command] for full details."
  | c => c.summary

/-- The arguments of a command as its help shows them. -/
def arguments : Command → Text
  | root => []
  | help => " [command]"
  | _ => " <fixture>"

/-- How many plain arguments a command takes, if it does not take any number. -/
def arity : Command → Option Nat
  | root | help => none
  | _ => some 1

/-- The flags of every command. -/
def globalFlags : List Flag :=
  [{ name := "config", usage := "Config file path (YAML)" },
   { name := "log-level", usage := "Log level (debug, info, warn, error)" },
   { name := "verify", isSwitch := true, usage := "Verify the graph before and after every pass" }]

def ownFlags : Command → List Flag
  | simplify =>
    [{ name := "dump-after", usage := "Dump the graph after the named pass, \"*\" for every pass" },
     { name := "dump-before",
       usage := "Dump the graph before the named pass, \"*\" for every pass" },
     { name := "format", letter := some 102, default := "text",
       usage := "Output format (text, dot, yaml, msgpack, spew)" },
     { name := "output", letter := some 111, usage := "Output file, defaults to stdout" }]
  | _ => []

/-- The flag that asks for help, and the one that asks for the version. -/
def askingFlags (c : Command) : List Flag :=
  { name := "help", letter := some 104, isSwitch := true, usage := "help for " ++ c.name } ::
    match c with
    | root => [{ name := "version", letter := some 118, isSwitch := true
                 usage := "version for " ++ c.name }]
    | _ => []

def flags (c : Command) : List Flag := c.ownFlags ++ globalFlags ++ c.askingFlags

/-! Help texts. -/

/-- The left part of a line on a flag. -/
def flagTitle (f : Flag) : Text :=
  Text.spaces (if f.letter.isSome then 2 else 6) ++ f.title ++
    (if f.isSwitch then [] else " string")

def flagNote (f : Flag) : Text :=
  if f.default.isEmpty then f.usage else f.usage ++ " (default " ++ Text.quoted f.default ++ ")"

/-- A line for each flag in the order of their names, with the notes in one column. -/
def flagTable (flags : List Flag) : Text :=
  let width := (flags.map fun f => (flagTitle f).length).foldl max 0
  let sorted := flags.mergeSort fun a b => decide (a.name ≤ b.name)
  sorted.flatMap fun f =>
    flagTitle f ++ Text.spaces (width - (flagTitle f).length + 3) ++ flagNote f ++ "\n"

/-- The commands that the help of the program lists. -/
def listed : List (Text × Text) :=
  (Text.ofString "completion",
    Text.ofString "Generate the autocompletion script for the specified shell") ::
  [help, simplify, stats, verify].map fun c => (c.name, c.summary)

def commandTable : Text :=
  listed.flatMap fun (name, note) => "  " ++ name ++ Text.spaces (12 - name.length) ++ note ++ "\n"

/-- How a command is used. The flags that ask for something are left out where nobody could
give them. -/
def usage (c : Command) (asking : Bool) : Text :=
  let shown := if asking then c.askingFlags else []
  match c with
  | root =>
    "Usage:\n  " ++ program ++ " [command]\n\nAvailable Commands:\n" ++ commandTable ++
      "\nFlags:\n" ++ flagTable (globalFlags ++ shown) ++ "\nUse \"" ++ program ++
      " [command] --help\" for more information about a command.\n"
  | _ =>
    "Usage:\n  " ++ program ++ " " ++ c.name ++ c.arguments ++ " [flags]\n\nFlags:\n" ++
      flagTable (c.ownFlags ++ shown) ++ "\nGlobal Flags:\n" ++ flagTable globalFlags

def helpText (c : Command) : Text := c.about ++ "\n\n" ++ c.usage true

/-! Which command a line calls. -/

/-- The arguments that are neither flags nor their values. A flag that would take the last
argument ends the list. -/
def words (args : List Text) : List Text :=
  match args with
  | [] => []
  | a :: rest =>
    if a = "--" then []
    else if Flag.takesNext globalFlags a then
      if rest.length ≤ 1 then [] else words rest.tail
    else if a = [] ∨ a.head? = some 45 then words rest
    else a :: words rest
termination_by args.length
decreasing_by all_goals grind

/-- The arguments without the word that calls the command. -/
def dropWord (word : Text) (args : List Text) : List Text :=
  match args with
  | [] => []
  | a :: rest =>
    if a = "--" then a :: rest
    else if Flag.takesNext globalFlags a then a :: rest.take 1 ++ dropWord word (rest.drop 1)
    else if a.head? ≠ some 45 ∧ a = word then rest
    else a :: dropWord word rest
termination_by args.length
decreasing_by all_goals grind

/-- The command of a line and the arguments for it, or the word that calls none. -/
def ofLine (args : List Text) : Except Text (Command × List Text) :=
  match words args with
  | [] => .ok (root, args)
  | word :: _ =>
    match ofName? word with
    | some c => .ok (c, dropWord word args)
    | none => .error word

/-- Whether a number of insertions, deletions and replacements of bytes can lead from one text
to another. -/
def within (edits : Nat) (s t : Text) : Bool :=
  match s, t with
  | [], t => t.length ≤ edits
  | s, [] => s.length ≤ edits
  | a :: s, b :: t =>
    if a = b then within edits s t
    else match edits with
      | 0 => false
      | n + 1 => within n s t || within n (a :: s) t || within n s (b :: t)
termination_by s.length + t.length

/-- The commands that may have been meant by a word. -/
def suggestions (word : Text) : List Text :=
  let names := [simplify.name, verify.name, stats.name, Text.ofString "completion"]
  names.filter fun n => within 2 word.lower n || word.lower.isPrefixOf n

end Command

end FlowGraph
