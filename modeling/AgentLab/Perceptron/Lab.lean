import AgentLab.Perceptron.Basic
import AgentLab.Arg
/-!
Working with a perceptron command by command. A lab holds a model and the draws still to come;
it is opened from loosely typed counts and rate, and each command answers a `Reply` with the
fields it fills. A refused command answers its failure and keeps the state it reached.
-/

namespace AgentLab.Perceptron

/-- What is asked of the lab: one epoch; training for a number of epochs, with reports on or off and
their period; the accuracy on the test points; the prediction at coordinates; a fresh model from
the next draws; new weights, bias or rate, each when given. -/
inductive Command where
  | step
  | train (epochs : Arg) (reporting : Bool) (period : Period)
  | evaluate
  | predict (xs : List Float)
  | reset
  | assign (weights : Option (Float × Float)) (bias : Option Float) (rate : Option Float)

structure Reply where
  mistakes : Option Nat := none
  reports : Option (List Nat) := none
  accuracy : Option Float := none
  label : Option Int := none
  redrawn : Bool := false
  failure : Option Failure := none

structure Lab where
  model : Model Float
  draws : List Float

/-- The counts and rate a model is made with, each defaulting to what the model takes when it is
not given: a hundred training points, two hundred test points, rate one tenth. -/
structure Settings where
  trainCount : Arg := .int 100
  testCount : Arg := .int 200
  rate : Arg := .real 0.1

namespace Lab

/-- Opens a lab: the counts taken as integers, then the rate as a double, then a model drawn.
The outer failure is a refused argument; `none` inside means the draws ran out. -/
def start (trainCount testCount rate : Arg) (draws : List Float) : Except Failure (Option Lab) := do
  let n ← trainCount.toInt
  let t ← testCount.toInt
  let r ← rate.toFloat
  pure ((Model.draw n t r draws).map fun (m, rest) => ⟨m, rest⟩)

def create (settings : Settings) (draws : List Float) : Except Failure (Option Lab) :=
  start settings.trainCount settings.testCount settings.rate draws

def run (lab : Lab) : Command → Option (Reply × Lab)
  | .step =>
    let (m, mistakes) := lab.model.step
    some ({ mistakes := some mistakes }, { lab with model := m })
  | .train epochs reporting period =>
    let reports := if reporting then some [] else none
    match epochs.toInt with
    | .error f => some ({ reports, failure := some f }, lab)
    | .ok e =>
      let t := lab.model.train e reporting period
      some ({ reports := if reporting then some t.reports else none, failure := t.failure },
        { lab with model := t.model })
  | .evaluate => some ({ accuracy := some lab.model.accuracy }, lab)
  | .predict xs =>
    match lab.model.predictAt xs with
    | .ok l => some ({ label := some l }, lab)
    | .error f => some ({ failure := some f }, lab)
  | .reset => do
    let (m, rest) ← lab.model.reset lab.draws
    pure ({ redrawn := true }, ⟨m, rest⟩)
  | .assign weights bias rate =>
    let m := lab.model
    let m := match weights with
      | some (w0, w1) => { m with w0, w1 }
      | none => m
    let m := match bias with
      | some b => { m with bias := b }
      | none => m
    let m := match rate with
      | some r => { m with rate := r }
      | none => m
    some ({}, { lab with model := m })

end Lab

end AgentLab.Perceptron
