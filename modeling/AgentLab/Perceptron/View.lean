import AgentLab.Perceptron.Lab
import AgentLab.Decimal.Notation
/-!
The figure of a perceptron: the training points coloured by whether the perceptron gets them
right, the hidden line and the decision line, a status text, an accuracy text, a slider for the
learning rate and one for the number of epochs, and buttons to train and to start over. The view
holds what the figure shows; it changes only when it is refreshed, and it is refreshed after each
epoch of training and after starting over, not when the model is changed from outside.
-/

namespace AgentLab.Perceptron

inductive Color where
  | green
  | red
  deriving DecidableEq, Repr

structure Trace where
  label : String
  xs : List Float
  ys : List Float

/-- A slider over `[low, high]` that moves in steps of `step` from `low`. -/
structure Slider where
  low : Float
  high : Float
  step : Float
  value : Float

def roundToInt (x : Float) : Except Failure Int :=
  match Binary.ofFloat x with
  | .nan => .error ⟨.badValue, "cannot convert float NaN to integer"⟩
  | .infinite _ => .error ⟨.overflow, "cannot convert float infinity to integer"⟩
  | .finite neg m q =>
    let (w, den) := Binary.twoPow q
    let n : Int := Decimal.roundHalfEven (m * w) den
    .ok (if neg then -n else n)

namespace Slider

def settle (s : Slider) (v : Float) : Except Failure Float := do
  let n ← roundToInt ((v - s.low) / s.step)
  let v := s.low + Float.ofInt n * s.step
  pure (if v <= s.low then s.low else if v >= s.high then s.high else v)

def make (low high step start : Float) : Except Failure Slider := do
  let s : Slider := ⟨low, high, step, low⟩
  pure { s with value := ← s.settle start }

def click (s : Slider) (v : Float) : Slider :=
  if s.low < v && v < s.high then
    match s.settle v with
    | .ok w => { s with value := w }
    | .error _ => s
  else s

end Slider

def lineXs : List Float := [-1.2, 1.2]

def truthTrace (l : Line Float) : Trace :=
  if l.b.abs > 1e-6 then ⟨"separador verdadero", lineXs, lineXs.map fun x => -(l.a * x + l.c) / l.b⟩
  else
    let x0 := -l.c / l.a
    ⟨"separador verdadero", [x0, x0], lineXs⟩

def decisionTrace (m : Model Float) : Trace :=
  if m.w1.abs > 1e-6 then
    ⟨"frontera de decisión", lineXs, lineXs.map fun x => -(m.w0 * x + m.bias) / m.w1⟩
  else if m.w0.abs > 1e-6 then
    let x0 := -m.bias / m.w0
    ⟨"frontera de decisión", [x0, x0], lineXs⟩
  else ⟨"frontera de decisión", [], []⟩

def figureNotation : Decimal.Notation := Decimal.Notation.general

def statusText (m : Model Float) : String :=
  "epoch: " ++ toString m.epoch ++ "\npesos: [" ++ figureNotation.fixed 3 m.w0 ++ ", " ++
    figureNotation.fixed 3 m.w1 ++ "] sesgo: " ++ figureNotation.fixed 3 m.bias

def accuracyText (acc : Float) : String :=
  "precisión prueba: " ++ figureNotation.fixed 2 acc ++ "%"

def figureTitle : String := "Perceptrón - clasificación lineal"

def buttonLabels : List String := ["iniciar", "restablecer"]

structure View where
  lab : Lab
  truth : Trace
  decision : Trace
  status : String
  accuracy : String
  colors : List Color
  points : Nat
  rate : Slider
  epochs : Slider

namespace View

def refresh (v : View) : View :=
  let m := v.lab.model
  { v with
    colors := m.training.map fun p => if m.predict p.x p.y == p.label then .green else .red
    points := m.training.length
    decision := decisionTrace m
    status := statusText m }

def make (lab : Lab) : Except Failure View := do
  if lab.model.training.isEmpty then
    throw ⟨.badIndex, "too many indices for array: array is 1-dimensional, but 2 were indexed"⟩
  let rate ← Slider.make 0.001 1.0 0.001 lab.model.rate
  let epochs ← Slider.make 1 1000 1 100
  pure (View.refresh ⟨lab, truthTrace lab.model.truth, ⟨"frontera de decisión", [], []⟩,
    "epoch: " ++ toString lab.model.epoch, "", [], lab.model.training.length, rate, epochs⟩)

/-- A click on the train button: the rate from its slider, then training for the number of epochs
on the other slider with the view refreshed after each, then the accuracy shown. -/
def start (v : View) : View :=
  let m := { v.lab.model with rate := v.rate.value }
  let epochs := match Arg.toInt (.real v.epochs.value) with
    | .ok n => n
    | .error _ => 0
  let t := m.train epochs true (.count 1)
  let v := View.refresh { v with lab := { v.lab with model := t.model } }
  { v with accuracy := accuracyText t.model.accuracy }

/-- A click on the start-over button: a fresh model, the view refreshed, the accuracy cleared;
`none` when the draws run out. -/
def restart (v : View) : Option View := do
  let (m, rest) ← v.lab.model.reset v.lab.draws
  pure { View.refresh { v with lab := ⟨m, rest⟩ } with accuracy := "" }

end View

/-- The perceptron run as a program: the quick check, then a model of two hundred training and
four hundred test points at rate one tenth shown in its figure. Gives the text the quick check
prints and the figure, or its failure; `none` when the draws run out. -/
def launch (draws : List Float) : Option (String × Except Failure View) := do
  let (text, rest) ← quickCheck draws
  match Lab.create { trainCount := .int 200, testCount := .int 400, rate := .real 0.1 } rest with
  | .ok (some lab) => some (text, View.make lab)
  | _ => none

end AgentLab.Perceptron
