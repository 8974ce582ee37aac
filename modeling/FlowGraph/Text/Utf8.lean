import FlowGraph.Text

/-! Code points of a byte string. A byte that starts no well-formed sequence stands for
itself as an invalid byte, so that no byte is lost. -/

namespace FlowGraph.Text

/-- One step of reading a byte string: a code point, or a byte that belongs to none. -/
inductive Rune where
  | char (c : Char)
  | bad (b : UInt8)
deriving DecidableEq, Repr

/-- The payload of a continuation byte. -/
def tail? (b : UInt8) : Option Nat :=
  if 0x80 ≤ b ∧ b ≤ 0xBF then some (b.toNat - 0x80) else none

/-- The code point that a well-formed sequence starts with, and the bytes behind it.
Overlong forms and surrogates are not well formed. -/
def char? : Text → Option (Char × Text)
  | [] => none
  | a :: rest =>
    if a < 0x80 then some (Char.ofNat a.toNat, rest)
    else match rest with
    | [] => none
    | b :: rest => do
      let y ← tail? b
      if 0xC2 ≤ a ∧ a ≤ 0xDF then return (Char.ofNat ((a.toNat - 0xC0) * 64 + y), rest)
      match rest with
      | [] => none
      | c :: rest => do
        let z ← tail? c
        if 0xE0 ≤ a ∧ a ≤ 0xEF then
          let n := ((a.toNat - 0xE0) * 64 + y) * 64 + z
          if n < 0x800 ∨ (0xD800 ≤ n ∧ n ≤ 0xDFFF) then none else return (Char.ofNat n, rest)
        else match rest with
        | [] => none
        | d :: rest => do
          let w ← tail? d
          if 0xF0 ≤ a ∧ a ≤ 0xF4 then
            let n := (((a.toNat - 0xF0) * 64 + y) * 64 + z) * 64 + w
            if n < 0x10000 ∨ 0x10FFFF < n then none else return (Char.ofNat n, rest)
          else none

/-- Reads at most `fuel` runes. Every rune takes a byte, so the length of the text suffices. -/
def runesUpTo : (fuel : Nat) → Text → List Rune
  | 0, _ => []
  | _ + 1, [] => []
  | fuel + 1, b :: rest =>
    match char? (b :: rest) with
    | some (c, rest) => .char c :: runesUpTo fuel rest
    | none => .bad b :: runesUpTo fuel rest

def runes (t : Text) : List Rune := runesUpTo t.length t

/-- The characters of the text, if it is UTF-8. -/
def chars? (t : Text) : Option (List Char) :=
  t.runes.mapM fun
    | .char c => some c
    | .bad _ => none

def ofChars (cs : List Char) : Text := cs.flatMap ofChar

end FlowGraph.Text
