/-!
Decimals and the parts of a double. A `Decimal` is `digits · 10 ^ exponent`; a `Binary` is what
the bits of a double say: a NaN, an infinity, or `± m · 2 ^ q` with natural `m`. All reading and
writing of numbers goes between these two through exact natural arithmetic.
-/

namespace AgentLab

/-- A nonnegative decimal `digits · 10 ^ exponent`. -/
structure Decimal where
  digits : Nat
  exponent : Int
  deriving DecidableEq, Repr

inductive Binary where
  | nan
  | infinite (neg : Bool)
  | finite (neg : Bool) (m : Nat) (q : Int)
  deriving DecidableEq, Repr

namespace Binary

def ofFloat (x : Float) : Binary :=
  let bits := x.toBits.toNat
  let neg := decide (bits ≥ Nat.pow 2 63)
  let field : Nat := bits / Nat.pow 2 52 % Nat.pow 2 11
  let fraction : Nat := bits % Nat.pow 2 52
  if field = Nat.pow 2 11 - 1 then
    if fraction = 0 then .infinite neg else .nan
  else if field = 0 then .finite neg fraction (-1074)
  else .finite neg (fraction + Nat.pow 2 52) ((field : Int) - 1075)

def twoPow (q : Int) : Nat × Nat :=
  if 0 ≤ q then (Nat.pow 2 q.toNat, 1) else (1, Nat.pow 2 (-q).toNat)

end Binary

namespace Decimal

def digitCount (n : Nat) : Nat :=
  (Nat.toDigits 10 n).length

def digitText (n : Nat) : String :=
  String.ofList (Nat.toDigits 10 n)

def normalize (d : Decimal) : Decimal :=
  if h : d.digits ≠ 0 ∧ d.digits % 10 = 0 then
    normalize ⟨d.digits / 10, d.exponent + 1⟩
  else d
termination_by d.digits
decreasing_by omega

/-- The exponent `k` of a positive fraction with `10 ^ (k - 1) ≤ num / den < 10 ^ k`. -/
def magnitude (num den : Nat) : Int :=
  if den ≤ num then digitCount (num / den)
  else 1 - digitCount ((den + num - 1) / num - 1)

example : magnitude 1 2 = 0 ∧ magnitude 10 1 = 2 ∧ magnitude 1 100 = -1 := by decide

def gridScale (t : Int) (den : Nat) : Nat × Nat :=
  if 0 ≤ t then (Nat.pow 10 t.toNat * den, 1) else (den, Nat.pow 10 (-t).toNat)

def roundHalfEven (num den : Nat) : Nat :=
  let q := num / den
  let r := num % den
  if 2 * r < den then q
  else if den < 2 * r then q + 1
  else if q % 2 = 0 then q else q + 1

example : roundHalfEven 5 2 = 2 ∧ roundHalfEven 7 2 = 4 ∧ roundHalfEven 7 3 = 2 := by decide

end Decimal

end AgentLab
