import FlowGraph.Text

/-! Files and the directories they are in, seen from a working directory. A directory is there
when a file is in it, or when it is listed by itself. -/

namespace FlowGraph

/-- A place: the names of the directories on the way to it, and its own. -/
abbrev Place := List Text

structure Files where
  entries : List (Place × Text) := []
  folders : List Place := []
deriving DecidableEq, Repr, Inhabited

inductive FileCause where
  | notFound
  | isDirectory
  | notDirectory
deriving DecidableEq, Repr

def FileCause.message : FileCause → Text
  | notFound => "no such file or directory"
  | isDirectory => "is a directory"
  | notDirectory => "not a directory"

/-- What failed, and on which path. -/
structure FileError where
  action : Text
  path : Text
  cause : FileCause
deriving DecidableEq, Repr

def FileError.message (e : FileError) : Text :=
  e.action ++ " " ++ e.path ++ ": " ++ e.cause.message

/-- What is at a place. -/
inductive Found where
  | file (content : Text)
  | folder
  | nothing
deriving DecidableEq, Repr

namespace Files

/-- The parts of a path between its slashes. -/
def parts : Text → List Text
  | [] => [[]]
  | b :: rest =>
    if b = 47 then [] :: parts rest
    else match parts rest with
      | [] => [[b]]
      | p :: ps => (b :: p) :: ps

/-- Files with plain names. -/
def ofList (l : List (Text × Text)) : Files := { entries := l.map fun e => (parts e.1, e.2) }

def look (f : Files) (p : Place) : Found :=
  match f.entries.lookup p with
  | some c => .file c
  | none =>
    if p.isEmpty || f.folders.contains p || f.entries.any fun e => p.isPrefixOf e.1 then .folder
    else .nothing

/-- The place one level up. Above the working directory each level has the name of two dots, and
the top of all directories is above itself. -/
def parent (p : Place) : Place :=
  if p = [Text.ofString "/"] then p
  else if p.all (· = "..") then p ++ [Text.ofString ".."]
  else p.dropLast

/-- Follows the parts of a path. Each of them starts from a directory. -/
def follow (f : Files) (here : Place) : List Text → Except FileCause Place
  | [] => .ok here
  | part :: rest =>
    match f.look here with
    | .file _ => .error .notDirectory
    | .nothing => .error .notFound
    | .folder =>
      if part = [] ∨ part = "." then follow f here rest
      else if part = ".." then follow f (parent here) rest
      else follow f (here ++ [part]) rest

/-- The place that a path leads to. The top of all directories is the place with the name of a
slash. -/
def resolve (f : Files) (path : Text) : Except FileCause Place :=
  match path with
  | [] => .error .notFound
  | b :: _ => f.follow (if b = 47 then [Text.ofString "/"] else []) (parts path)

def read (f : Files) (path : Text) : Except FileError Text :=
  match f.resolve path with
  | .error e => .error ⟨"open", path, e⟩
  | .ok p =>
    match f.look p with
    | .file c => .ok c
    | .folder => .error ⟨"read", path, .isDirectory⟩
    | .nothing => .error ⟨"open", path, .notFound⟩

/-- Sets the content of the file at a place. -/
def put (f : Files) (p : Place) (content : Text) : Files :=
  { f with entries :=
      if f.entries.any (·.1 = p) then
        f.entries.map fun e => if e.1 = p then (p, content) else e
      else f.entries ++ [(p, content)] }

/-- Whether a path ends in a slash after a name that is free. Only a directory could be made
there. -/
def wantsFolder (f : Files) (path : Text) : Bool :=
  path.getLast? = some 47 && (f.resolve path.dropLast).isOk

/-- Makes an empty file, in place of an earlier one if there is one. The answer has its place. -/
def create (f : Files) (path : Text) : Except FileError (Files × Place) :=
  match f.resolve path with
  | .error .notFound =>
    .error ⟨"open", path, if f.wantsFolder path then .isDirectory else .notFound⟩
  | .error e => .error ⟨"open", path, e⟩
  | .ok p =>
    match f.look p with
    | .folder => .error ⟨"open", path, .isDirectory⟩
    | _ => .ok (f.put p [], p)

end Files

end FlowGraph
