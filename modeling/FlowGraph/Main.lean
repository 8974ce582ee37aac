import FlowGraph.Command.Run

/-! The program. It takes in the files that its arguments may name, runs the command line on
them, and puts out the streams and the files that changed. -/

namespace FlowGraph.Main

def variableNames : List String :=
  ["CFGOPT_VERIFY", "CFGOPT_LOG_LEVEL", "CFGOPT_DUMP_BEFORE", "CFGOPT_DUMP_AFTER"]

def environment : IO Environment :=
  variableNames.filterMapM fun name => do
    return (← IO.getEnv name).map fun v => (Text.ofString name, Text.ofString v)

/-- The paths that an argument may name: all of it, what follows an equals sign, and what
follows the letter of a flag. -/
def candidates (argument : Text) : List Text :=
  [argument, (argument.dropWhile (· ≠ 61)).drop 1, argument.drop 2].filter (· ≠ [])

/-- The places on the way along a path, with its end. -/
def places (path : Text) : List Place :=
  let start : Place := if path.head? = some 47 then [Text.ofString "/"] else []
  let step (l : Place × List Place) (part : Text) : Place × List Place :=
    if part = [] ∨ part = "." then l
    else
      let next := if part = ".." then Files.parent l.1 else l.1 ++ [part]
      (next, next :: l.2)
  ((Files.parts path).foldl step (start, [start])).2

/-- The path of a place, if it can be written as a string. -/
def pathOf? (p : Place) : Option String :=
  let path : Text :=
    match p with
    | [] => "."
    | top :: rest => if top = "/" then "/" ++ Text.join "/" rest else Text.join "/" p
  path.toString?

/-- Takes in what is at a place. -/
def take (files : Files) (p : Place) : IO Files := do
  let some path := pathOf? p | return files
  if ← (← IO.FS.realPath path).isDir then return { files with folders := p :: files.folders }
  try
    return files.put p (Text.ofBytes (← IO.FS.readBinFile path))
  catch _ => return files

def takeAll (args : List Text) : IO Files :=
  ((args.flatMap candidates).flatMap places).eraseDups.foldlM take {}

/-- Puts out the files that are new or changed. -/
def putFiles (before after : Files) : IO Unit :=
  after.entries.forM fun (p, content) => do
    if before.entries.lookup p ≠ some content then
      if let some path := pathOf? p then IO.FS.writeBinFile path content.toBytes

end FlowGraph.Main

open FlowGraph in
def main (args : List String) : IO UInt32 := do
  let args := args.map Text.ofString
  let files ← Main.takeAll args
  let (code, shell) := Command.launch (← Main.environment) args { files }
  Main.putFiles files shell.files
  (← IO.getStdout).write shell.out.written.toBytes
  (← IO.getStderr).write shell.err.written.toBytes
  return code.toUInt32
