import AgentLab.Decimal.Basic
/-!
The shortest decimal of a double. The doubles `m · 2 ^ q` read back from every real of an
interval around them; the interval includes its ends when `m` is even, and is half as wide below
a power of two. On the grids `10 ^ (k - 1)`, `10 ^ (k - 2)`, ... the value has two neighbours,
and if any grid point lies in the interval one of them does, so the first grid with a neighbour
inside gives the fewest digits; of two neighbours inside, the nearer wins, a tie the even one.
-/

namespace AgentLab.Decimal

/-- The interval of reals that read back as `m · 2 ^ q`, as numerators `lo`, `v`, `hi` over one
denominator `den`, with the value `v` in the middle and `closed` telling if the ends belong. -/
structure Rounding where
  lo : Nat
  v : Nat
  hi : Nat
  den : Nat
  closed : Bool

def Rounding.ofBinary (m : Nat) (q : Int) : Rounding :=
  let (w, den) := Binary.twoPow q
  let below := if m = Nat.pow 2 52 ∧ q > -1074 then 1 else 2
  ⟨(4 * m - below) * w, 4 * m * w, (4 * m + 2) * w, 4 * den, m % 2 == 0⟩

namespace Rounding

def contains (r : Rounding) (t : Int) (c : Nat) : Bool :=
  let (cs, xs) := gridScale t r.den
  let point := c * cs
  (r.lo * xs < point || (r.closed && r.lo * xs == point)) &&
    (point < r.hi * xs || (r.closed && point == r.hi * xs))

def nearestOnGrid (r : Rounding) (t : Int) : Option Decimal :=
  let (cs, xs) := gridScale t r.den
  let below := r.v * xs / cs
  let above := below + 1
  match r.contains t below, r.contains t above with
  | true, true =>
    let gapBelow := r.v * xs - below * cs
    let gapAbove := above * cs - r.v * xs
    if gapBelow < gapAbove then some ⟨below, t⟩
    else if gapAbove < gapBelow then some ⟨above, t⟩
    else if below % 2 = 0 then some ⟨below, t⟩ else some ⟨above, t⟩
  | true, false => some ⟨below, t⟩
  | false, true => some ⟨above, t⟩
  | false, false => none

end Rounding

/-- The decimal with the fewest digits that reads back as the positive double `m · 2 ^ q`,
nearest the value among those, with no trailing zeros. Seventeen digits always suffice. -/
def shortest (m : Nat) (q : Int) : Decimal :=
  let r := Rounding.ofBinary m q
  let k := magnitude r.v r.den
  let found := (List.range 17).findSome? fun i => r.nearestOnGrid (k - ((i : Nat) + 1 : Nat))
  normalize (found.getD ⟨r.v * (gridScale (k - 17) r.den).2 / (gridScale (k - 17) r.den).1, k - 17⟩)

example : shortest 1 (-1074) = ⟨5, -324⟩ := by decide +kernel
example : shortest 3602879701896397 (-55) = ⟨1, -1⟩ := by decide +kernel

end AgentLab.Decimal
