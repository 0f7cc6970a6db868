import AgentLab.Arg
import AgentLab.Decimal.Basic
/-!
The five operators of the calculator, their symbols, precedence and grouping, and what each
computes on doubles. Sums, differences and products follow IEEE arithmetic; a quotient refuses a
zero divisor; a power follows the rules of `pow` on the extended reals and refuses results that
are not real or do not fit.
-/

namespace AgentLab.Calc

inductive Op where
  | add
  | sub
  | mul
  | div
  | pow
  deriving DecidableEq, Repr

/-- Why an operator gives no value: a divisor of zero, of either sign; a power with no real value, or
zero to a negative power; a power too large for a double. -/
inductive ArithFault where
  | divisionByZero
  | domain
  | range
  deriving DecidableEq, Repr

namespace ArithFault

def message : ArithFault → String
  | divisionByZero => "División por cero"
  | domain => "math domain error"
  | range => "math range error"

def kind : ArithFault → FaultKind
  | divisionByZero => .zeroDivision
  | domain => .badValue
  | range => .overflow

end ArithFault

namespace Op

/-- The operators in the order their workers are set up. -/
def all : List Op := [add, sub, mul, div, pow]

def symbol : Op → String
  | add => "+"
  | sub => "-"
  | mul => "*"
  | div => "/"
  | pow => "^"

def ofSymbol? : String → Option Op
  | "+" => some add
  | "-" => some sub
  | "*" => some mul
  | "/" => some div
  | "^" => some pow
  | _ => none

theorem ofSymbol?_symbol (o : Op) : ofSymbol? o.symbol = some o := by
  cases o <;> rfl

def workerName (o : Op) : String :=
  "op_" ++ toString (all.idxOf o) ++ "_" ++ o.symbol

/-- Binding strength: powers over products and quotients over sums and differences. -/
def precedence : Op → Nat
  | add => 2
  | sub => 2
  | mul => 3
  | div => 3
  | pow => 4

def rightAssoc : Op → Bool
  | pow => true
  | _ => false

end Op

def isOddInteger (y : Float) : Bool :=
  match Binary.ofFloat y with
  | .finite _ m q =>
    if 0 ≤ q then q == 0 && m % 2 == 1
    else m % Nat.pow 2 (-q).toNat == 0 && m / Nat.pow 2 (-q).toNat % 2 == 1
  | _ => false

def infinity : Float := Float.ofScientific 1 false 400

def isFiniteFloat (x : Float) : Bool := !x.isNaN && !x.isInf

/-- `x` to the power `y`. A NaN base gives one for a zero exponent, a NaN exponent one for a
base of one; infinite operands follow the limits of `pow`; for finite operands the result of
`Float.pow` stands unless it is a NaN (a negative base to a fractional power), infinite from a zero
base (zero to a negative power), or infinite from finite operands (too large). -/
def power (x y : Float) : Except ArithFault Float :=
  if isFiniteFloat x && isFiniteFloat y then
    let r := Float.pow x y
    if r.isNaN then .error .domain
    else if r.isInf then (if x == 0 then .error .domain else .error .range)
    else .ok r
  else if x.isNaN then .ok (if y == 0 then 1 else x)
  else if y.isNaN then .ok (if x == 1 then 1 else y)
  else if x.isInf then
    let odd := isOddInteger y
    if y > 0 then .ok (if odd then x else x.abs)
    else if y == 0 then .ok 1
    else .ok (if odd then (if x < 0 then -0.0 else 0.0) else 0.0)
  else
    if x.abs == 1 then .ok 1
    else if y > 0 && x.abs > 1 then .ok y
    else if y < 0 && x.abs < 1 then .ok (-y)
    else .ok 0.0

namespace Op

def apply : Op → Float → Float → Except ArithFault Float
  | add, a, b => .ok (a + b)
  | sub, a, b => .ok (a - b)
  | mul, a, b => .ok (a * b)
  | div, a, b => if b == 0 then .error .divisionByZero else .ok (a / b)
  | pow, a, b => power a b

end Op

end AgentLab.Calc
