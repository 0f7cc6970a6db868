import AgentLab.Decimal.Fixed
/-!
A row of doubles in aligned columns, between brackets and divided by spaces. Each number has at
most eight digits after the point, fewer when fewer read back, and keeps its point; the parts
before and after the point are padded to the widest of the row. When the nonzero magnitudes of the
row reach `10⁸`, fall below `10⁻⁴` or span more than a factor of a thousand, every number is
written with one digit before the point, a common count after it, and a signed exponent.
-/

namespace AgentLab.Decimal

/-- A finite number cut for a column: its sign, the digits before and after the point, and in
scientific form its exponent. -/
structure Cell where
  neg : Bool
  whole : String
  fraction : String
  exponent : Int

def positionalCell (neg : Bool) (m : Nat) (q : Int) : Cell :=
  let (whole, fraction) := split (if m = 0 then ⟨0, 0⟩ else limited 8 m q)
  ⟨neg, whole, fraction, 0⟩

def scientificCell (neg : Bool) (m : Nat) (q : Int) : Cell :=
  let d := if m = 0 then ⟨0, 0⟩ else limitedDigits 9 m q
  let text := digitText d.digits
  ⟨neg, String.ofList (text.toList.take 1), String.ofList (text.toList.drop 1),
    d.exponent + text.length - 1⟩

def padLeft (width : Nat) (s : String) : String :=
  String.ofList (List.replicate (width - s.length) ' ') ++ s

def padRight (width : Nat) (s : String) : String :=
  s ++ String.ofList (List.replicate (width - s.length) ' ')

def widest (ns : List Nat) : Nat := ns.foldl max 0

def nonFiniteText (x : Float) : String :=
  if x.isNaN then "nan" else if x < 0 then "-inf" else "inf"

/-- The row of doubles in aligned columns. -/
def alignedRow (xs : List Float) : String :=
  let parts := xs.map Binary.ofFloat
  let finite := parts.filterMap fun | .finite neg m q => some (neg, m, q) | _ => none
  let magnitudes := (xs.filter fun x => !x.isNaN && !x.isInf && x != 0).map Float.abs
  let scientific := match magnitudes with
    | [] => false
    | first :: rest =>
      let hi := rest.foldl max first
      let lo := rest.foldl min first
      hi >= 1e8 || lo < 0.0001 || hi / lo > 1000
  let cells := finite.map fun (neg, m, q) =>
    if scientific then scientificCell neg m q else positionalCell neg m q
  let signed (c : Cell) := (if c.neg then "-" else "") ++ c.whole
  let left := widest (cells.map fun c => (signed c).length)
  let places := widest (cells.map (·.fraction.length))
  let expWidth := max 2 (widest (cells.map fun c => (digitText c.exponent.natAbs).length))
  let right := if scientific then expWidth + 2 + places else places
  let negInf := xs.any fun x => x.isInf && x < 0
  let left :=
    if finite.length = xs.length then left
    else max left ((if negInf then 4 else 3) - (right + 1))
  let cellText (c : Cell) : String :=
    if scientific then
      let power := digitText c.exponent.natAbs
      padLeft left (signed c) ++ "." ++ c.fraction ++
        String.ofList (List.replicate (places - c.fraction.length) '0') ++ "e" ++
        (if c.exponent < 0 then "-" else "+") ++
        String.ofList (List.replicate (expWidth - power.length) '0') ++ power
    else padLeft left (signed c) ++ "." ++ padRight right c.fraction
  let texts := xs.map fun x =>
    match Binary.ofFloat x with
    | .finite neg m q => cellText (if scientific then scientificCell neg m q else positionalCell neg m q)
    | _ => padLeft (left + right + 1) (nonFiniteText x)
  "[" ++ " ".intercalate texts ++ "]"

end AgentLab.Decimal
