import FlowGraph.Text.Quoted

/-! What can be wrong with a YAML text that is read into typed data. -/

namespace FlowGraph.Yaml

/-- One place where a text does not fit the data it is read into. -/
inductive Mismatch where
  /-- A node of the wrong kind. The value is shown for scalars. -/
  | wrongType (line : Nat) (tag : Text) (value : Option Text) (expected : Text)
  | duplicateKey (line : Nat) (key : Text) (first : Nat)
  | fieldTwice (line : Nat) (field type : Text)
deriving DecidableEq, Repr

/-- A scalar as a message shows it: at most ten bytes. -/
def shortened (t : Text) : Text := if 10 < t.length then t.take 7 ++ "..." else t

def Mismatch.message : Mismatch → Text
  | wrongType line tag value expected =>
    let shown : Text := match value with
      | some v => " \x60" ++ shortened v ++ "\x60"
      | none => []
    "line " ++ Text.ofNat line ++ ": cannot unmarshal " ++ tag ++ shown ++ " into " ++ expected
  | duplicateKey line key first =>
    "line " ++ Text.ofNat line ++ ": mapping key " ++ Text.quoted key ++
      " already defined at line " ++ Text.ofNat first
  | fieldTwice line field type =>
    "line " ++ Text.ofNat line ++ ": field " ++ field ++ " already set in type " ++ type

inductive Error where
  /-- The text is not a document, or a value contradicts its tag. -/
  | malformed
  /-- The document does not fit, with all places where it does not. -/
  | mismatches (all : List Mismatch)
  /-- A value that reads its own text refused it. -/
  | refused (message : Text)
deriving DecidableEq, Repr

def Error.message : Error → Text
  | malformed => "yaml: invalid"
  | mismatches all =>
    ("yaml: unmarshal errors:" : Text) ++ all.flatMap fun m => ("\n  " : Text) ++ m.message
  | refused m => m

end FlowGraph.Yaml
