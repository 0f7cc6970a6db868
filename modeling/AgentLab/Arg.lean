import AgentLab.Decimal.Read
import AgentLab.Text
/-!
Failures as a caller sees them, and arguments as a caller passes them.

A failure has a kind that a caller can branch on and a message for people; each part of the
library has its own type of causes and says which kind and message each has.

An argument is taken as a count, a rate or a text. Taking it as an integer truncates a double and
reads a text as an integer literal; taking it as a double rounds an integer and reads a text as a
number literal; other types are refused with their type named.
-/

namespace AgentLab

/-! ## Failures -/

/-- The kinds of failure that callers tell apart: a value the operation cannot take, a value of a
type it cannot take, a part it needs that is missing, a wait out of steps, a division by zero, a
result too large, an index the value lacks, input that ended early, a key the table lacks. -/
inductive FaultKind where
  | badValue
  | badType
  | missing
  | timedOut
  | zeroDivision
  | overflow
  | badIndex
  | endOfInput
  | missingKey
  deriving DecidableEq, Repr

structure Failure where
  kind : FaultKind
  message : String
  deriving DecidableEq, Repr

/-! ## Arguments -/

inductive Arg where
  | none
  | bool (b : Bool)
  | int (n : Int)
  | real (x : Float)
  | text (s : String)
  | list (size : Nat)
  | table (size : Nat)

namespace Arg

def typeName : Arg → String
  | none => "NoneType"
  | bool _ => "bool"
  | int _ => "int"
  | real _ => "float"
  | text _ => "str"
  | list _ => "list"
  | table _ => "dict"

def clip (n : Nat) (s : String) : String :=
  String.ofList (s.toList.take n)

/-- The integer toward zero from a finite double `± m · 2 ^ q`. -/
def truncate (neg : Bool) (m : Nat) (q : Int) : Int :=
  let (w, den) := Binary.twoPow q
  let n : Int := m * w / den
  if neg then -n else n

def toInt : Arg → Except Failure Int
  | bool b => .ok (if b then 1 else 0)
  | int n => .ok n
  | real x =>
    match Binary.ofFloat x with
    | .nan => .error ⟨.badValue, "cannot convert float NaN to integer"⟩
    | .infinite _ => .error ⟨.overflow, "cannot convert float infinity to integer"⟩
    | .finite neg m q => .ok (truncate neg m q)
  | text s =>
    match Literal.readInteger? s with
    | some n => .ok n
    | Option.none =>
      .error ⟨.badValue, "invalid literal for int() with base 10: " ++ clip 200 (Text.quote s)⟩
  | a => .error ⟨.badType,
      "int() argument must be a string, a bytes-like object or a real number, not '" ++
        a.typeName ++ "'"⟩

/-- The double nearest an integer, refused when it is beyond the largest double. -/
def intToFloat (n : Int) : Except Failure Float :=
  let x := Decimal.toFloat ⟨n.natAbs, 0⟩
  if x.isInf then .error ⟨.overflow, "int too large to convert to float"⟩
  else .ok (if n < 0 then -x else x)

def toFloat : Arg → Except Failure Float
  | bool b => .ok (if b then 1 else 0)
  | int n => intToFloat n
  | real x => .ok x
  | text s =>
    match Literal.read? s with
    | some l => .ok l.toFloat
    | Option.none => .error ⟨.badValue, "could not convert string to float: " ++ Text.quote s⟩
  | a => .error ⟨.badType,
      "float() argument must be a string or a real number, not '" ++ a.typeName ++ "'"⟩

end Arg

end AgentLab
