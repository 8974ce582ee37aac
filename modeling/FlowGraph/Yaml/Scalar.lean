import FlowGraph.Text.Decimal
import FlowGraph.Text.Number

/-! What a plain scalar means: nothing, a truth value, a number, a point in time or a text. -/

namespace FlowGraph.Yaml

inductive Scalar where
  | null
  | bool (b : Bool)
  | int (n : Int)
  /-- A finite number. -/
  | float (x : Decimal)
  | infinite (negative : Bool)
  | notANumber
  | timestamp
  | text
deriving DecidableEq, Repr

namespace Scalar

/-- The short form of the tag that a meaning has. -/
def tag : Scalar → Text
  | null => "!!null"
  | bool _ => "!!bool"
  | int _ => "!!int"
  | float _ | infinite _ | notANumber => "!!float"
  | timestamp => "!!timestamp"
  | text => "!!str"

/-- Words with a meaning of their own. -/
def words : List (Text × Scalar) :=
  [("", null), ("~", null), ("null", null), ("Null", null), ("NULL", null),
   ("true", bool true), ("True", bool true), ("TRUE", bool true),
   ("false", bool false), ("False", bool false), ("FALSE", bool false),
   (".nan", notANumber), (".NaN", notANumber), (".NAN", notANumber),
   (".inf", infinite false), (".Inf", infinite false), (".INF", infinite false),
   ("+.inf", infinite false), ("+.Inf", infinite false), ("+.INF", infinite false),
   ("-.inf", infinite true), ("-.Inf", infinite true), ("-.INF", infinite true)]

/-! Integers. -/

def digitValue (b : UInt8) : Nat :=
  if Text.isDigit b then b.toNat - 48
  else if 97 ≤ b ∧ b ≤ 122 then b.toNat - 87
  else if 65 ≤ b ∧ b ≤ 90 then b.toNat - 55
  else 36

/-- Digits of a base, at least one. -/
def natural? (base : Nat) (t : Text) : Option Nat :=
  if !t.isEmpty && t.all fun b => digitValue b < base then some (Text.digits base digitValue t)
  else none

/-- Digits in the base that their beginning tells: `0x`, `0b`, `0o`, a leading 0, or ten. -/
def naturalAnyBase? (t : Text) : Option Nat :=
  match t with
  | 48 :: c :: rest =>
    if c = 120 ∨ c = 88 then natural? 16 rest
    else if c = 98 ∨ c = 66 then natural? 2 rest
    else if c = 111 ∨ c = 79 then natural? 8 rest
    else natural? 8 (c :: rest)
  | _ => natural? 10 t

/-- A signed number of 64 bits, or an unsigned one without a sign. -/
def integer? (read : Text → Option Nat) (t : Text) : Option Int :=
  let (negative, ds) := Text.splitSign t
  match read ds with
  | none => none
  | some n =>
    if negative then
      if n ≤ 1 <<< 63 then some (-n) else none
    else if n < 1 <<< 63 then some n
    else if ds.length = t.length && n < 1 <<< 64 then some n
    else none

/-- A number behind a mark of its base, where a sign may follow the mark. -/
def marked? (mark : Text) (base : Nat) (t : Text) : Option Int :=
  match Text.dropStart? mark t with
  | some rest => integer? (natural? base) rest
  | none =>
    match Text.dropStart? (45 :: mark) t with
    | some rest => do
      let n ← natural? base rest
      if n ≤ 1 <<< 63 then some (-n) else none
    | none => none

/-! Decimal fractions. -/

/-- A mantissa, which must have a digit. The exponent counts the digits behind the point. -/
def mantissa? (t : Text) : Option Decimal :=
  let whole := t.takeWhile Text.isDigit
  let fraction? := match t.drop whole.length with
    | [] => some []
    | 46 :: fraction => if fraction.all Text.isDigit then some fraction else none
    | _ => none
  match fraction? with
  | none => none
  | some fraction =>
    if whole.isEmpty && fraction.isEmpty then none
    else some { digits := Text.digits 10 digitValue (whole ++ fraction), exponent := -fraction.length }

def exponent? (t : Text) : Option Int :=
  let (negative, ds) := Text.splitSign t
  (natural? 10 ds).map fun n => if negative then -n else (n : Int)

/-- A decimal fraction with an optional sign and exponent that does not overflow. -/
def decimal? (t : Text) : Option Decimal := do
  let (negative, t) := Text.splitSign t
  let head := t.takeWhile fun b => b ≠ 69 ∧ b ≠ 101
  let m ← mantissa? head
  let e ← match t.drop head.length with
    | [] => some 0
    | _ :: rest => exponent? rest
  let x : Decimal := { m with negative, exponent := m.exponent + e }
  if x.overflows then none else some x

/-- Drops underscores if each of them stands between two digits. -/
def dropSeparators? (previous : Bool) : Text → Option Text
  | [] => some []
  | 95 :: rest =>
    if previous && rest.head?.any Text.isDigit then dropSeparators? false rest else none
  | b :: rest => (dropSeparators? (Text.isDigit b) rest).map (b :: ·)

/-! Points in time. -/

/-- One or two digits. -/
def shortNumber? (t : Text) : Option (Nat × Text) :=
  match t with
  | a :: b :: rest =>
    if !Text.isDigit a then none
    else if Text.isDigit b then some (digitValue a * 10 + digitValue b, rest)
    else some (digitValue a, b :: rest)
  | [a] => if Text.isDigit a then some (digitValue a, []) else none
  | [] => none

def daysIn (year month : Nat) : Nat :=
  if month = 2 then
    if year % 4 = 0 && (year % 100 ≠ 0 || year % 400 = 0) then 29 else 28
  else if month ∈ [4, 6, 9, 11] then 30
  else 31

def expect? (b : UInt8) : Text → Option Text
  | [] => none
  | c :: rest => if c = b then some rest else none

/-- A date: four digits, then month and day of one or two digits. -/
def date? (t : Text) : Option Text := do
  let year := t.takeWhile Text.isDigit
  if year.length ≠ 4 then none
  let t ← expect? 45 (t.drop 4)
  let (month, t) ← shortNumber? t
  if month < 1 ∨ 12 < month then none
  let t ← expect? 45 t
  let (day, t) ← shortNumber? t
  if day < 1 ∨ daysIn (Text.digits 10 digitValue year) month < day then none
  return t

/-- A time of day, with a fraction of a second if there is one. -/
def clock? (t : Text) : Option Text := do
  let (hour, t) ← shortNumber? t
  if 24 ≤ hour then none
  let t ← expect? 58 t
  let (minute, t) ← shortNumber? t
  if 60 ≤ minute then none
  let t ← expect? 58 t
  let (second, t) ← shortNumber? t
  if 60 ≤ second then none
  match t with
  | p :: d :: rest =>
    if (p = 46 ∨ p = 44) ∧ Text.isDigit d then return rest.dropWhile Text.isDigit
    else return t
  | _ => return t

/-- The zone behind a time: a Z, or a sign with hours and minutes. -/
def isZone (t : Text) : Bool :=
  match t with
  | [90] => true
  | [s, a, b, 58, c, d] =>
    (s = 43 || s = 45) && [a, b, c, d].all Text.isDigit &&
      digitValue a * 10 + digitValue b ≤ 24 && digitValue c * 10 + digitValue d ≤ 60
  | _ => false

def isTimestamp (t : Text) : Bool :=
  match date? t with
  | none => false
  | some [] => true
  | some (b :: rest) =>
    if b = 84 ∨ b = 116 then (clock? rest).any isZone
    else if b = 32 then clock? (rest.dropWhile (· = 32)) = some []
    else false

/-- The number that a text starting with a sign or a digit stands for. -/
def number? (t : Text) : Option Scalar :=
  let t := t.filter (· ≠ 95)
  match integer? naturalAnyBase? t with
  | some n => some (int n)
  | none =>
    match decimal? t with
    | some x => some (float x)
    | none => ((marked? "0b" 2 t).or (marked? "0o" 8 t)).map int

/-- The meaning of a plain scalar. Timestamps are looked for only if asked. -/
def resolve (timestamps : Bool) (t : Text) : Scalar :=
  match words.lookup t with
  | some s => s
  | none =>
    match t with
    | [] => null
    | b :: _ =>
      if b = 46 then
        match (dropSeparators? false t).bind decimal? with
        | some x => float x
        | none => text
      else if b = 43 ∨ b = 45 ∨ Text.isDigit b then
        if timestamps && isTimestamp t then timestamp
        else (number? t).getD text
      else text

/-- The integer that a number is read as where an integer is wanted: fractions are cut off,
and what lies below all integers of 64 bits becomes the least of them. -/
def toInt64? : Scalar → Option Int64
  | int n => if n ≤ Int64.maxValue.toInt then some (Int64.ofInt n) else none
  | float x =>
    let n := x.integral
    if x.negative then some (if n ≤ 1 <<< 63 then Int64.ofInt (-n) else Int64.minValue)
    else if n < 1 <<< 63 then some (Int64.ofInt n)
    else if n = 1 <<< 63 then some Int64.minValue
    else none
  | infinite true => some Int64.minValue
  | _ => none

end Scalar

end FlowGraph.Yaml
