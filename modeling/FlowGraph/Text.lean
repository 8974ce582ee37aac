/-! Text is a string of bytes. A name, a label or a pass name may hold bytes that are no
UTF-8, and every format of the library must carry such a name unharmed. -/

namespace FlowGraph

abbrev Text := List UInt8

namespace Text

instance : LawfulBEq Text := inferInstance

/-- The UTF-8 bytes of a string. -/
def ofString (s : String) : Text := s.toList.flatMap String.utf8EncodeChar

instance : Coe String Text := ⟨ofString⟩

def ofChar (c : Char) : Text := String.utf8EncodeChar c

def ofNat (n : Nat) : Text := ofString (String.ofList (Nat.toDigits 10 n))

/-- Decimal digits, after a minus sign for a negative number. -/
def ofInt : Int → Text
  | .ofNat n => ofNat n
  | .negSucc n => "-" ++ ofNat (n + 1)

def join (sep : Text) : List Text → Text
  | [] => []
  | [t] => t
  | t :: u :: rest => t ++ sep ++ join sep (u :: rest)

def replicate (n : Nat) (c : Char) : Text := ofString (String.ofList (List.replicate n c))

def spaces (n : Nat) : Text := List.replicate n 32

def ofBytes (bytes : ByteArray) : Text := bytes.toList

def toBytes (t : Text) : ByteArray := ⟨t.toArray⟩

/-- The string whose UTF-8 bytes are these, if there is one. -/
def toString? (t : Text) : Option String := String.fromUTF8? t.toBytes

/-- The text without the given beginning, if it begins so. -/
def dropStart? : (start t : Text) → Option Text
  | [], t => some t
  | _ :: _, [] => none
  | a :: start, b :: t => if a = b then dropStart? start t else none

def hexDigit (upper : Bool) (n : Nat) : UInt8 :=
  if n < 10 then (48 + n).toUInt8 else ((if upper then 55 else 87) + n).toUInt8

/-- The low `digits` hexadecimal digits of a number. -/
def hex (upper : Bool) (n : Nat) : (digits : Nat) → Text
  | 0 => []
  | d + 1 => hexDigit upper (n >>> (4 * d) % 16) :: hex upper n d

/-- ASCII letters in lower case. -/
def lower (t : Text) : Text := t.map fun b => if 65 ≤ b ∧ b ≤ 90 then b + 32 else b

def upper (t : Text) : Text := t.map fun b => if 97 ≤ b ∧ b ≤ 122 then b - 32 else b

def isDigit (b : UInt8) : Bool := 48 ≤ b && b ≤ 57

/-- The value of decimal digits, read from the left. -/
def digits (base : Nat) (value : UInt8 → Nat) (t : Text) : Nat :=
  t.foldl (fun n b => n * base + value b) 0

end Text

end FlowGraph
