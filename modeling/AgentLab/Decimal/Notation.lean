import AgentLab.Decimal.Fixed
/-!
How a double is written as text. A `Notation` holds the decisions of a format: where positional
writing ends, whether an integer keeps `.0`, how an exponent looks, and the words for a NaN and an
infinity. `write` puts the shortest decimal of a double into that layout; `fixed` writes the value
rounded to a number of places.
-/

namespace AgentLab.Decimal

structure Notation where
  /-- Leading-digit exponents `e` with `positionalFrom ≤ e < positionalBelow` are written without
  an exponent. -/
  positionalFrom : Int
  positionalBelow : Int
  pointZero : Bool
  exponentMark : String
  exponentDigits : Nat
  exponentPlus : Bool
  nanText : String
  infinityText : String

/-- General notation: the shortest digits, positional for leading exponents from -4 to 15 with
`.0` kept on integers, otherwise one digit, a point if more follow, `e`, a sign and at least two
exponent digits; `nan` and `inf`. -/
def Notation.general : Notation :=
  ⟨-4, 16, true, "e", 2, true, "nan", "inf"⟩

namespace Notation

def layout (n : Notation) (d : Decimal) : String :=
  let text := digitText d.digits
  let lead : Int := d.exponent + text.length - 1
  if d.digits = 0 then (if n.pointZero then "0.0" else "0")
  else if n.positionalFrom ≤ lead ∧ lead < n.positionalBelow then
    let (whole, fraction) := split d
    if fraction.isEmpty then (if n.pointZero then whole ++ ".0" else whole)
    else whole ++ "." ++ fraction
  else
    let rest := String.ofList (text.toList.drop 1)
    let mantissa := String.ofList (text.toList.take 1) ++ (if rest.isEmpty then "" else "." ++ rest)
    let power := digitText lead.natAbs
    let sign := if lead < 0 then "-" else if n.exponentPlus then "+" else ""
    mantissa ++ n.exponentMark ++ sign ++
      String.ofList (List.replicate (n.exponentDigits - power.length) '0') ++ power

/-- The text of a double: its shortest decimal in this layout, with a minus sign when the sign bit
is set (also on zero); a NaN has no sign. -/
def write (n : Notation) (x : Float) : String :=
  match Binary.ofFloat x with
  | .nan => n.nanText
  | .infinite neg => (if neg then "-" else "") ++ n.infinityText
  | .finite neg m q =>
    (if neg then "-" else "") ++ n.layout (if m = 0 then ⟨0, 0⟩ else shortest m q)

/-- The text of a double rounded to `places` digits after the point, a half to the even
neighbour; the minus sign follows the sign bit, so small negatives read `-0.000`. -/
def fixed (n : Notation) (places : Nat) (x : Float) : String :=
  match Binary.ofFloat x with
  | .nan => n.nanText
  | .infinite neg => (if neg then "-" else "") ++ n.infinityText
  | .finite neg m q =>
    let (whole, fraction) := split (atPlaces places m q)
    (if neg then "-" else "") ++ whole ++ (if places = 0 then "" else "." ++ fraction)

end Notation

example : Notation.general.layout ⟨1, 16⟩ = "1e+16" ∧ Notation.general.layout ⟨1, -5⟩ = "1e-05" ∧
    Notation.general.layout ⟨9, 0⟩ = "9.0" ∧ Notation.general.layout ⟨1, -4⟩ = "0.0001" ∧
    Notation.general.layout ⟨123, 13⟩ = "1230000000000000.0" ∧
    Notation.general.layout ⟨15, -8⟩ = "1.5e-07" := by
  decide +kernel

end AgentLab.Decimal
