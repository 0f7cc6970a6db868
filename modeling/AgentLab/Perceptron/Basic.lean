import AgentLab.Arg
import AgentLab.Decimal.Aligned
import AgentLab.Decimal.Notation
/-!
A perceptron that learns to separate labelled points of the plane. A hidden line
`a·x + b·y + c = 0` labels every point by the side it lies on; the perceptron holds two weights
and a bias, predicts `1` where `w₀·x + w₁·y + bias ≥ 0` and `-1` elsewhere, and after each
mistake on a training point moves the weights and bias toward that point's label by the learning
rate. Lines, weights and points come from a stream of draws in `[0, 1)`, scaled to their ranges.

The quick check without a figure makes a model of fifty training and two hundred test points at
rate one tenth, prints its initial weights and bias, trains it for fifty epochs and prints the
accuracy reached.
-/

namespace AgentLab.Perceptron

/-- The numbers a perceptron computes with: sums, products, the integers, and a test for being
at least zero. Doubles run the program; exact numbers serve to reason about it. -/
class Scalar (α : Type) extends Add α, Mul α where
  ofInt : Int → α
  nonneg : α → Bool

instance : Scalar Float where
  ofInt := Float.ofInt
  nonneg x := x >= 0

structure Point (α : Type) where
  id : Int
  x : α
  y : α
  label : Int

structure Line (α : Type) where
  a : α
  b : α
  c : α

def Line.side {α : Type} [Scalar α] (l : Line α) (x y : α) : Int :=
  if Scalar.nonneg (l.a * x + l.b * y + l.c) then 1 else -1

structure Model (α : Type) where
  /-- The asked numbers of training and test points; a negative number means none. -/
  trainCount : Int
  testCount : Int
  rate : α
  truth : Line α
  w0 : α
  w1 : α
  bias : α
  epoch : Nat
  training : List (Point α)
  testing : List (Point α)

abbrev Draw := StateT (List Float) Option

def uniform (low high : Float) : Draw Float := fun
  | u :: rest => some (low + (high - low) * u, rest)
  | [] => none

/-- Points numbered `first`, `first + 1`, ... while fewer than `count`, each drawn as `x` then `y`
in `[-1, 1)` and labelled by the line. -/
def drawPoints (truth : Line Float) (first : Int) : Nat → Draw (List (Point Float))
  | 0 => pure []
  | count + 1 => do
    let x ← uniform (-1) 1
    let y ← uniform (-1) 1
    let rest ← drawPoints truth (first + 1) count
    pure (⟨first, x, y, truth.side x y⟩ :: rest)

/-- A hidden line: `a`, `b` in `[-1, 1)` and `c` in `[-0.5, 0.5)`; when `a` and `b` are both
within `10⁻³` of zero, `a` becomes one. -/
def drawLine : Draw (Line Float) := do
  let a ← uniform (-1) 1
  let b ← uniform (-1) 1
  let c ← uniform (-0.5) 0.5
  if a.abs < 1e-3 && b.abs < 1e-3 then pure ⟨1.0, b, c⟩ else pure ⟨a, b, c⟩

/-- A model drawn afresh: line, weights, bias, training points, then test points; epoch zero. -/
def Model.draw (trainCount testCount : Int) (rate : Float) : Draw (Model Float) := do
  let truth ← drawLine
  let w0 ← uniform (-1) 1
  let w1 ← uniform (-1) 1
  let bias ← uniform (-0.5) 0.5
  let training ← drawPoints truth 0 trainCount.toNat
  let testing ← drawPoints truth trainCount testCount.toNat
  pure ⟨trainCount, testCount, rate, truth, w0, w1, bias, 0, training, testing⟩

def Model.drawCount (trainCount testCount : Int) : Nat :=
  6 + 2 * (trainCount.toNat + testCount.toNat)

namespace Model

variable {α : Type} [Scalar α]

def reset (m : Model Float) : Draw (Model Float) :=
  Model.draw m.trainCount m.testCount m.rate

def predict (m : Model α) (x y : α) : Int :=
  if Scalar.nonneg (m.w0 * x + m.w1 * y + m.bias) then 1 else -1

def predictAt (m : Model α) : List α → Except Failure Int
  | [x, y] => .ok (m.predict x y)
  | xs => .error ⟨.badValue, "shapes (2,) and (" ++ toString xs.length ++ ",) not aligned: 2 (dim 0) != " ++
      toString xs.length ++ " (dim 0)"⟩

/-- The perceptron rule at one point: on a mistake, the weights move by `rate · label` times the
point and the bias by `rate · label`. -/
def learn (m : Model α) (p : Point α) : Model α × Bool :=
  if m.predict p.x p.y != p.label then
    let k := m.rate * Scalar.ofInt p.label
    ({ m with w0 := m.w0 + k * p.x, w1 := m.w1 + k * p.y, bias := m.bias + k }, true)
  else (m, false)

/-- One epoch: the rule at every training point in order; answers the number of mistakes. -/
def step (m : Model α) : Model α × Nat :=
  let (m, mistakes) := m.training.foldl
    (fun (acc : Model α × Nat) p =>
      let (m, wrong) := acc.1.learn p
      (m, if wrong then acc.2 + 1 else acc.2)) (m, 0)
  ({ m with epoch := m.epoch + 1 }, mistakes)

def accuracy (m : Model Float) : Float :=
  if m.testing.isEmpty then 0.0
  else
    let right := (m.testing.filter fun p => m.predict p.x p.y == p.label).length
    Float.ofNat right / Float.ofNat m.testing.length * 100.0

end Model

/-- How often training reports progress: every `k`-th epoch for a whole `k`, or the epochs whose
count is a whole multiple of a double `k`. -/
inductive Period where
  | count (k : Int)
  | real (k : Float)

def Period.everyEpoch : Period := .count 1

def Period.due (n : Nat) : Period → Except Failure Bool
  | .count k =>
    if k = 0 then .error ⟨.zeroDivision, "integer modulo by zero"⟩ else .ok ((n : Int) % k == 0)
  | .real k =>
    if k == 0 then .error ⟨.zeroDivision, "float modulo"⟩
    else match Binary.ofFloat k with
      | .finite _ m q =>
        let (w, den) := Binary.twoPow q
        .ok (n * den % (m * w) == 0)
      | _ => .ok false

structure Training (α : Type) where
  model : Model α
  reports : List Nat
  failure : Option Failure

/-- Trains for `epochs` epochs at most, stopping after an epoch without mistakes. With reports
on, an epoch is reported when its number is due or it is the last, and once more when it had no
mistakes. -/
def Model.train {α : Type} [Scalar α] (m : Model α) (epochs : Int) (reporting : Bool)
    (period : Period) : Training α :=
  go m [] 0 epochs.toNat
where
  go (m : Model α) (reports : List Nat) (e : Nat) : Nat → Training α
    | 0 => ⟨m, reports, none⟩
    | left + 1 =>
      let (m, mistakes) := m.step
      let due : Except Failure Bool :=
        if reporting then (period.due (e + 1)).map (· || (e : Int) == epochs - 1) else .ok false
      match due with
      | .error f => ⟨m, reports, some f⟩
      | .ok d =>
        let reports := if d then reports ++ [m.epoch] else reports
        if mistakes = 0 then ⟨m, if reporting then reports ++ [m.epoch] else reports, none⟩
        else go m reports (e + 1) left

/-! ## The quick check -/

/-- The text of the quick check and the draws left after it; `none` when the draws run out. -/
def quickCheck (draws : List Float) : Option (String × List Float) := do
  let (m, rest) ← Model.draw 50 200 0.1 draws
  let opening := "pesos iniciales: " ++ Decimal.alignedRow [m.w0, m.w1] ++ " bias inicial: " ++
    Decimal.Notation.general.write m.bias ++ "\n"
  let trained := (m.train 50 false Period.everyEpoch).model
  pure (opening ++ "precisión tras entrenamiento (headless): " ++
    Decimal.Notation.general.fixed 2 trained.accuracy ++ "%\n", rest)

end AgentLab.Perceptron
