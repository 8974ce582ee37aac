import FlowGraph.Text

/-! Decimal numbers with an exponent, and what becomes of them in the nearest binary number
with 53 significant bits. -/

namespace FlowGraph

/-- The number `digits * 10 ^ exponent` with a sign. -/
structure Decimal where
  negative : Bool := false
  digits : Nat
  exponent : Int := 0
deriving DecidableEq, Repr

namespace Decimal

/-- The nearest integer to a quotient. A half goes to the even neighbour. -/
def roundDiv (n d : Nat) : Nat :=
  let q := n / d
  let r := n % d
  if 2 * r < d then q
  else if d < 2 * r then q + 1
  else q + q % 2

/-- The place of the leading digit, or `none` for zero. -/
def magnitude? (x : Decimal) : Option Int :=
  if x.digits = 0 then none else some ((Nat.toDigits 10 x.digits).length + x.exponent)

/-- The absolute value as a quotient. -/
def ratio (x : Decimal) : Nat × Nat :=
  match x.exponent with
  | .ofNat e => (x.digits * Nat.pow 10 e, 1)
  | .negSucc e => (x.digits, Nat.pow 10 (e + 1))

/-- Whether the number is too large for an exponent of 11 bits. -/
def overflows (x : Decimal) : Bool :=
  match x.magnitude? with
  | none => false
  | some m =>
    if m < 300 then false
    else if 400 < m then true
    else
      let (n, d) := x.ratio
      d * (1 <<< 1024 - 1 <<< 970) ≤ n

/-- The integral part of the nearest binary number, without its sign. Of a number with a
magnitude beyond 400 only its size matters. -/
def integral (x : Decimal) : Nat :=
  match x.magnitude? with
  | none => 0
  | some m =>
    if m < -50 then 0
    else if 400 < m then Nat.pow 10 400
    else
      let (n, d) := x.ratio
      let bits := if n / d = 0 then 0 else (n / d).log2 + 1
      if 53 ≤ bits then roundDiv n (d <<< (bits - 53)) <<< (bits - 53)
      else roundDiv (n <<< (53 - bits)) d >>> (53 - bits)

end Decimal

end FlowGraph
