import AgentLab.Perceptron.Lab
/-!
Drawing a perceptron afresh. A computation on the stream of draws that `Takes k` reads exactly `k`
draws: it fails on fewer, and on more it answers from the first `k` and leaves the others. Single
draws take one, a sequence of computations takes the sum, so a line takes three, `count` points
take `2 · count`, and a whole model takes `6 + 2 · (max n 0 + max t 0)` for `n` training and `t`
test points. Resetting a lab draws through the same computation, with the model's own counts and
rate, whatever happened to the model before.
-/

namespace AgentLab.Perceptron

/-- A computation on the stream of draws reads exactly `k` of them: it fails on fewer, and on `k`
draws followed by any others it gives a result fixed by those `k` and leaves the others. -/
structure Takes {β : Type} (k : Nat) (d : Draw β) : Prop where
  short : ∀ u : List Float, u.length < k → d u = none
  exact : ∀ u : List Float, u.length = k → ∃ b, ∀ v, d (u ++ v) = some (b, v)

namespace Takes

variable {β γ : Type} {a c k : Nat} {d : Draw β}

theorem bind_apply (d : Draw β) (g : β → Draw γ) (u : List Float) :
    (d >>= g) u = (d u).bind fun r => g r.1 r.2 := by
  simp only [bind, StateT.bind]

theorem pure (b : β) : Takes 0 (Pure.pure b : Draw β) where
  short _ short := absurd short (Nat.not_lt_zero _)
  exact u empty := ⟨b, fun v => by rw [List.length_eq_zero_iff.mp empty]; rfl⟩

theorem uniform (low high : Float) : Takes 1 (Perceptron.uniform low high) where
  short u short := by rw [List.length_eq_zero_iff.mp (Nat.lt_one_iff.mp short)]; rfl
  exact u single := by
    obtain ⟨x, rfl⟩ := List.length_eq_one_iff.mp single
    exact ⟨low + (high - low) * x, fun v => rfl⟩

theorem bind {g : β → Draw γ} (first : Takes a d) (rest : ∀ b, Takes c (g b)) :
    Takes (a + c) (d >>= g) where
  short u short := by
    rw [bind_apply]
    rcases Nat.lt_or_ge u.length a with fewer | enough
    · rw [first.short u fewer]; rfl
    · -- the first `a` draws give a result, and too few are left after them
      obtain ⟨b, read⟩ := first.exact (u.take a) (by simp; omega)
      rw [← List.take_append_drop a u, read, Option.bind_some,
        (rest b).short _ (by simp; omega)]
  exact u exact := by
    obtain ⟨b, read⟩ := first.exact (u.take a) (by simp; omega)
    obtain ⟨r, readRest⟩ := (rest b).exact (u.drop a) (by simp; omega)
    refine ⟨r, fun v => ?_⟩
    rw [bind_apply, ← List.take_append_drop a u, List.append_assoc, read, Option.bind_some, readRest]

theorem of_eq (t : Takes a d) (same : a = k) : Takes k d := same ▸ t

end Takes

theorem bind_eq_some {β γ : Type} {d : Draw β} {g : β → Draw γ} {u : List Float}
    {r : γ × List Float} :
    (d >>= g) u = some r ↔ ∃ b u', d u = some (b, u') ∧ g b u' = some r := by
  rw [Takes.bind_apply, Option.bind_eq_some_iff]
  exact ⟨fun ⟨⟨b, u'⟩, first, rest⟩ => ⟨b, u', first, rest⟩,
    fun ⟨b, u', first, rest⟩ => ⟨(b, u'), first, rest⟩⟩

theorem takes_drawPoints (truth : Line Float) (first : Int) (count : Nat) :
    Takes (2 * count) (drawPoints truth first count) := by
  induction count generalizing first with
  | zero => exact Takes.pure []
  | succ count ih =>
    simp only [drawPoints]
    exact ((Takes.uniform _ _).bind fun _ => (Takes.uniform _ _).bind fun _ =>
      (ih _).bind fun _ => Takes.pure _).of_eq (by omega)

theorem takes_drawLine : Takes 3 drawLine := by
  unfold drawLine
  refine ((Takes.uniform _ _).bind fun _ => (Takes.uniform _ _).bind fun _ =>
    (Takes.uniform _ _).bind fun _ => (?_ : Takes 0 _)).of_eq rfl
  split
  · exact Takes.pure _
  · exact Takes.pure _

theorem takes_draw (trainCount testCount : Int) (rate : Float) :
    Takes (Model.drawCount trainCount testCount) (Model.draw trainCount testCount rate) := by
  unfold Model.draw
  refine (takes_drawLine.bind fun _ => (Takes.uniform _ _).bind fun _ => (Takes.uniform _ _).bind
    fun _ => (Takes.uniform _ _).bind fun _ => (takes_drawPoints _ _ _).bind fun _ =>
      (takes_drawPoints _ _ _).bind fun _ => Takes.pure _).of_eq ?_
  simp only [Model.drawCount]
  omega

theorem drawPoints_ids {truth : Line Float} {first : Int} {count : Nat} {u rest : List Float}
    {ps : List (Point Float)} (drawn : drawPoints truth first count u = some (ps, rest)) :
    ps.map Point.id = (List.range count).map fun i : Nat => first + i := by
  induction count generalizing first u ps with
  | zero =>
    cases drawn
    rfl
  | succ count ih =>
    simp only [drawPoints] at drawn
    obtain ⟨x, u₁, -, drawn⟩ := bind_eq_some.mp drawn
    obtain ⟨y, u₂, -, drawn⟩ := bind_eq_some.mp drawn
    obtain ⟨later, u₃, rest_drawn, drawn⟩ := bind_eq_some.mp drawn
    cases drawn
    rw [List.range_succ_eq_map, List.map_cons, List.map_cons, List.map_map, ih rest_drawn]
    simp [Function.comp_def, Int.add_assoc, Int.add_comm 1]

/-- What a model drawn afresh is: the counts and rate it was asked for, epoch zero, training points
numbered from zero and test points numbered on from the training count. -/
structure Model.Fresh (trainCount testCount : Int) (rate : Float) (m : Model Float) : Prop where
  trainCount_eq : m.trainCount = trainCount
  testCount_eq : m.testCount = testCount
  rate_eq : m.rate = rate
  epoch_eq : m.epoch = 0
  training_ids : m.training.map Point.id = (List.range trainCount.toNat).map fun i : Nat => (i : Int)
  testing_ids : m.testing.map Point.id = (List.range testCount.toNat).map fun i : Nat => trainCount + i

theorem Model.fresh_of_draw {trainCount testCount : Int} {rate : Float} {u rest : List Float}
    {m : Model Float} (drawn : Model.draw trainCount testCount rate u = some (m, rest)) :
    m.Fresh trainCount testCount rate := by
  unfold Model.draw at drawn
  obtain ⟨truth, u₁, -, drawn⟩ := bind_eq_some.mp drawn
  obtain ⟨w0, u₂, -, drawn⟩ := bind_eq_some.mp drawn
  obtain ⟨w1, u₃, -, drawn⟩ := bind_eq_some.mp drawn
  obtain ⟨bias, u₄, -, drawn⟩ := bind_eq_some.mp drawn
  obtain ⟨training, u₅, trained, drawn⟩ := bind_eq_some.mp drawn
  obtain ⟨testing, u₆, tested, drawn⟩ := bind_eq_some.mp drawn
  cases drawn
  exact ⟨rfl, rfl, rfl, rfl, by simpa using drawPoints_ids trained, drawPoints_ids tested⟩

/-- Resetting a lab draws a model exactly as opening a lab on the same draws with the model's
counts and rate does, whatever came before: steps, training and new weights or rates change
neither what is drawn nor how. The reset reads exactly six draws and two for each training and each
test point, keeps the counts and the rate, restarts at epoch zero and numbers the training points
from zero and the test points on from the training count. -/
theorem reset_redraws_fresh_model (lab : Lab) :
    Lab.start (.int lab.model.trainCount) (.int lab.model.testCount) (.real lab.model.rate) lab.draws =
      .ok ((lab.run .reset).map Prod.snd) ∧
    Takes (Model.drawCount lab.model.trainCount lab.model.testCount) lab.model.reset ∧
    ∀ u m rest, lab.model.reset u = some (m, rest) →
      m.Fresh lab.model.trainCount lab.model.testCount lab.model.rate := by
  refine ⟨?_, takes_draw _ _ _, fun u m rest drawn => Model.fresh_of_draw drawn⟩
  simp only [Lab.start, Lab.run, Arg.toInt, Arg.toFloat, Model.reset, bind, Except.bind, pure,
    Except.pure]
  cases Model.draw lab.model.trainCount lab.model.testCount lab.model.rate lab.draws <;> rfl

end AgentLab.Perceptron
