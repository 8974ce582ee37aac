import FlowGraph.Text

/-! Decimal integers of 64 bits. Digits are read from the left, and the first one at which the
number is spoilt decides what is wrong with it. -/

namespace FlowGraph

inductive NumberError where
  | malformed
  | outOfRange
deriving DecidableEq, Repr

def NumberError.message : NumberError → Text
  | malformed => "invalid syntax"
  | outOfRange => "value out of range"

namespace Text

/-- Reads one more digit of a number below 2^64. -/
def nextDigit (n : Nat) (b : UInt8) : Except NumberError Nat :=
  if isDigit b then
    let m := n * 10 + (b.toNat - 48)
    if m < 1 <<< 64 then .ok m else .error .outOfRange
  else .error .malformed

/-- The sign of a number, and what follows it. -/
def splitSign : Text → Bool × Text
  | 43 :: rest => (false, rest)
  | 45 :: rest => (true, rest)
  | t => (false, t)

/-- A number with an optional sign, between -2^63 and 2^63 - 1. -/
def parseInt64 (t : Text) : Except NumberError Int := do
  let (negative, ds) := splitSign t
  if ds.isEmpty then throw .malformed
  let n ← ds.foldlM nextDigit 0
  if negative then
    if n ≤ 1 <<< 63 then return -n else throw .outOfRange
  else
    if n < 1 <<< 63 then return n else throw .outOfRange

end Text

end FlowGraph
