import AgentLab.Decimal.Basic
import AgentLab.Text
/-!
Reading numbers typed as text. A number literal is an optional sign and either a decimal with an
optional point and exponent, or one of the words `inf`, `infinity`, `nan` in any case; an integer
literal is an optional sign and digits. Digits may come from any script, single underscores may
stand between digits, and blanks may surround the whole. A decimal becomes the double nearest to
it, a tie going to the even one.
-/

namespace AgentLab

/-- A number read from text: a signed decimal, a signed infinity, or a signed NaN. -/
inductive Literal where
  | finite (neg : Bool) (d : Decimal)
  | infinite (neg : Bool)
  | nan (neg : Bool)
  deriving DecidableEq, Repr

namespace Decimal

/-- The double nearest to a decimal, a tie going to the even one; values of more than 309
digits before the point are infinite, those below `10 ^ -324` are zero. -/
def toFloat (d : Decimal) : Float :=
  let size : Int := d.exponent + digitCount d.digits
  if d.digits = 0 ∨ size ≤ -324 then 0.0
  else if 310 ≤ size then Float.ofScientific 1 false 400
  else if d.exponent < 0 then Float.ofScientific d.digits true (-d.exponent).toNat
  else Float.ofScientific d.digits false d.exponent.toNat

def digitsValue (ds : List Char) : Nat :=
  ds.foldl (fun acc c => 10 * acc + (c.toNat - '0'.toNat)) 0

end Decimal

namespace Literal

def toFloat : Literal → Float
  | .finite neg d => if neg then -d.toFloat else d.toFloat
  | .infinite neg => if neg then -Float.ofScientific 1 false 400 else Float.ofScientific 1 false 400
  | .nan neg => if neg then -(Float.ofScientific 0 false 0 / 0) else Float.ofScientific 0 false 0 / 0

def asciiDigits (cs : List Char) : List Char :=
  cs.map fun c => match Text.digitValue? c with
    | some v => Char.ofNat ('0'.toNat + v)
    | none => c

def underscoresInside : List Char → Bool
  | a :: '_' :: b :: rest => a.isDigit && b.isDigit && underscoresInside (b :: rest)
  | '_' :: _ => false
  | _ :: rest => underscoresInside rest
  | [] => true

example : underscoresInside "1_000".toList ∧ !underscoresInside "1__0".toList ∧
    !underscoresInside "_1".toList ∧ !underscoresInside "1_".toList := by decide

def sign : List Char → Bool × List Char
  | '-' :: rest => (true, rest)
  | '+' :: rest => (false, rest)
  | rest => (false, rest)

def isEdgeBlank (c : Char) : Bool :=
  Text.isBlank c && !(0x1C ≤ c.toNat && c.toNat ≤ 0x1F)

def decimalBody? (cs : List Char) : Option Decimal :=
  let whole := cs.takeWhile Char.isDigit
  let afterWhole := cs.dropWhile Char.isDigit
  let (fraction, afterFraction) := match afterWhole with
    | '.' :: rest => (rest.takeWhile Char.isDigit, rest.dropWhile Char.isDigit)
    | rest => ([], rest)
  if whole.isEmpty ∧ fraction.isEmpty then none
  else
    let mantissa := Decimal.digitsValue (whole ++ fraction)
    match afterFraction with
    | [] => some ⟨mantissa, -(fraction.length : Int)⟩
    | c :: rest =>
      if c = 'e' ∨ c = 'E' then
        let (neg, power) := sign rest
        if power.isEmpty ∨ !power.all Char.isDigit then none
        else
          let e : Int := Decimal.digitsValue power
          some ⟨mantissa, (if neg then -e else e) - fraction.length⟩
      else none

/-- Reads a number literal; `none` when the text is not one. -/
def read? (s : String) : Option Literal :=
  let cs := asciiDigits s.toList
  let body := ((cs.dropWhile isEdgeBlank).reverse.dropWhile isEdgeBlank).reverse
  if !underscoresInside body then none
  else
    let (neg, rest) := sign (body.filter (· ≠ '_'))
    let word := String.ofList (rest.map Char.toLower)
    if word = "inf" ∨ word = "infinity" then some (.infinite neg)
    else if word = "nan" then some (.nan neg)
    else (decimalBody? rest).map (.finite neg)

example : read? " 1_000.5 " = some (.finite false ⟨10005, -1⟩) ∧ read? "-InF" = some (.infinite true) ∧
    read? "1e" = none ∧ read? ".5" = some (.finite false ⟨5, -1⟩) ∧ read? "." = none := by
  decide +kernel

/-- Reads an integer literal: blanks, an optional sign, digits with single underscores between
them, blanks; `none` when the text is not one. -/
def readInteger? (s : String) : Option Int :=
  let cs := asciiDigits s.toList
  let body := ((cs.dropWhile isEdgeBlank).reverse.dropWhile isEdgeBlank).reverse
  let (neg, rest) := sign body
  if rest.isEmpty ∨ !underscoresInside rest ∨ !(rest.all fun c => c.isDigit || c == '_') then none
  else
    let n : Int := Decimal.digitsValue (rest.filter (· ≠ '_'))
    some (if neg then -n else n)

example : readInteger? " -0_7 " = some (-7) ∧ readInteger? "2.5" = none ∧ readInteger? "+" = none := by
  decide +kernel

end Literal

end AgentLab
