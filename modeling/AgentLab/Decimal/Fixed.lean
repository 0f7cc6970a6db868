import AgentLab.Decimal.Shortest
/-!
Decimals with a bound on the places after the point. `atPlaces` rounds the exact value of a
double to a number of places, a half to the even neighbour; `limited` keeps the shortest decimal
unless it needs more places than the bound, and then rounds.
-/

namespace AgentLab.Decimal

def onGrid (t : Int) (m : Nat) (q : Int) : Decimal :=
  let (w, den) := Binary.twoPow q
  let (cs, xs) := gridScale t den
  ⟨roundHalfEven (m * w * xs) cs, t⟩

def atPlaces (places : Nat) (m : Nat) (q : Int) : Decimal :=
  onGrid (-(places : Int)) m q

example : atPlaces 2 1 (-1) = ⟨50, -2⟩ ∧ atPlaces 0 5 (-1) = ⟨2, 0⟩ := by decide +kernel

/-- The shortest decimal of `m · 2 ^ q` when it has at most `places` digits after the point;
otherwise the value rounded to `places` places. Trailing zeros are dropped either way. -/
def limited (places : Nat) (m : Nat) (q : Int) : Decimal :=
  let d := shortest m q
  if -(places : Int) ≤ d.exponent then d else normalize (atPlaces places m q)

/-- The shortest decimal of `m · 2 ^ q` when it has at most `count` significant digits;
otherwise the value rounded to that many. Trailing zeros are dropped either way. -/
def limitedDigits (count : Nat) (m : Nat) (q : Int) : Decimal :=
  let d := shortest m q
  if digitCount d.digits ≤ count then d
  else
    let (w, den) := Binary.twoPow q
    normalize (onGrid (magnitude (m * w) den - count) m q)

def split (d : Decimal) : String × String :=
  let text := digitText d.digits
  if 0 ≤ d.exponent then (text ++ String.ofList (List.replicate d.exponent.toNat '0'), "")
  else
    let places := (-d.exponent).toNat
    let padded := String.ofList (List.replicate (places + 1 - text.length) '0') ++ text
    (String.ofList (padded.toList.take (padded.length - places)),
      String.ofList (padded.toList.drop (padded.length - places)))

example : split ⟨1234, -2⟩ = ("12", "34") ∧ split ⟨5, -3⟩ = ("0", "005") ∧ split ⟨7, 2⟩ = ("700", "") := by
  decide +kernel

end AgentLab.Decimal
