import AgentLab.Perceptron.Basic
import Mathlib.Algebra.Order.Field.Rat
import Mathlib.Algebra.Order.Archimedean.Basic
import Mathlib.Algebra.Order.BigOperators.Group.List
import Mathlib.Tactic.Linarith
import Mathlib.Tactic.Positivity
/-!
Convergence of the perceptron on points labelled by a line, in exact rational arithmetic.

Points labelled by the side of a line they lie on, those on the line included, are separated with
a positive margin by the line shifted by half the smallest gap below it. Read the weights and bias
as one vector `(w₀, w₁, bias)`: along the shifted line's direction every mistake moves it forward by
at least the rate times the margin, while its squared length grows by at most the squared rate
times the spread of the points. Both measures are set up for one point, carried through an epoch
and then through a run of epochs; with the Cauchy–Schwarz inequality they bound the number of
mistakes of every run (Novikoff's argument). So an epoch within the bound makes no mistake, and
training for more epochs stops after the first such epoch with every training point predicted
right.
-/

namespace AgentLab.Perceptron

instance : Scalar ℚ where
  ofInt n := n
  nonneg x := decide (0 ≤ x)

@[simp] theorem nonneg_rat (x : ℚ) : Scalar.nonneg x = decide (0 ≤ x) := rfl

@[simp] theorem ofInt_rat (n : Int) : (Scalar.ofInt n : ℚ) = n := rfl

namespace Line

def eval (l : Line ℚ) (x y : ℚ) : ℚ := l.a * x + l.b * y + l.c

def normSq (l : Line ℚ) : ℚ := l.a ^ 2 + l.b ^ 2 + l.c ^ 2

theorem side_eq (l : Line ℚ) (x y : ℚ) : l.side x y = if 0 ≤ l.eval x y then 1 else -1 := by
  by_cases above : 0 ≤ l.eval x y <;> simp only [eval] at above <;> simp [side, eval, above]

end Line

/-- Points labelled `1` or `-1`, each at least `γ` along the direction `u` on the side of its
label. -/
def Separates (u : Line ℚ) (γ : ℚ) (points : List (Point ℚ)) : Prop :=
  ∀ p ∈ points, (p.label = 1 ∨ p.label = -1) ∧ γ ≤ (p.label : ℚ) * u.eval p.x p.y

def spread (points : List (Point ℚ)) : ℚ := (points.map fun p => p.x ^ 2 + p.y ^ 2 + 1).sum

theorem le_spread {points : List (Point ℚ)} {p : Point ℚ} (member : p ∈ points) :
    p.x ^ 2 + p.y ^ 2 + 1 ≤ spread points := by
  refine List.single_le_sum (fun r entry => ?_) _ (List.mem_map_of_mem member)
  obtain ⟨q, -, rfl⟩ := List.mem_map.mp entry
  positivity

theorem spread_nonneg (points : List (Point ℚ)) : 0 ≤ spread points :=
  List.sum_nonneg fun r entry => by
    obtain ⟨q, -, rfl⟩ := List.mem_map.mp entry
    positivity

/-! ## A margin for labelled points -/

theorem exists_gap (f : Point ℚ → ℚ) (points : List (Point ℚ)) :
    ∃ δ, 0 < δ ∧ ∀ p ∈ points, f p < 0 → f p ≤ -δ := by
  induction points with
  | nil => exact ⟨1, one_pos, by simp⟩
  | cons q rest ih =>
    obtain ⟨δ, positive, gap⟩ := ih
    by_cases negative : f q < 0
    · refine ⟨min δ (-f q), lt_min positive (by linarith), fun p member below => ?_⟩
      rcases List.mem_cons.mp member with rfl | later
      · linarith [min_le_right δ (-f p)]
      · linarith [min_le_left δ (-f q), gap p later below]
    · refine ⟨δ, positive, fun p member below => ?_⟩
      rcases List.mem_cons.mp member with rfl | later
      · exact absurd below negative
      · exact gap p later below

/-- Points labelled by the side of a line are separated with a positive margin: the line shifted
up by half the gap of the points below it puts every point strictly on the side of its label. -/
theorem separates_of_labelled {line : Line ℚ} {points : List (Point ℚ)}
    (labelled : ∀ p ∈ points, p.label = line.side p.x p.y) :
    ∃ u γ, 0 < γ ∧ Separates u γ points := by
  obtain ⟨δ, positive, gap⟩ := exists_gap (fun p => line.eval p.x p.y) points
  refine ⟨⟨line.a, line.b, line.c + δ / 2⟩, δ / 2, by positivity, fun p member => ?_⟩
  have shifted : Line.eval ⟨line.a, line.b, line.c + δ / 2⟩ p.x p.y = line.eval p.x p.y + δ / 2 := by
    simp only [Line.eval]
    ring
  rw [shifted, labelled p member, Line.side_eq]
  split
  · rename_i above
    refine ⟨.inl rfl, ?_⟩
    push_cast
    linarith
  · rename_i below
    have far := gap p member (lt_of_not_ge below)
    refine ⟨.inr rfl, ?_⟩
    push_cast
    linarith

/-! ## One point -/

namespace Model

section Generic

variable {α : Type} [Scalar α] {m : Model α} {p : Point α}

theorem learn_of_right (right : m.predict p.x p.y = p.label) : m.learn p = (m, false) := by
  simp [learn, right]

theorem learn_of_wrong (wrong : m.predict p.x p.y ≠ p.label) :
    m.learn p =
      ({ m with w0 := m.w0 + m.rate * Scalar.ofInt p.label * p.x,
                w1 := m.w1 + m.rate * Scalar.ofInt p.label * p.y,
                bias := m.bias + m.rate * Scalar.ofInt p.label }, true) := by
  simp [learn, wrong]

end Generic

def score (m : Model ℚ) (x y : ℚ) : ℚ := m.w0 * x + m.w1 * y + m.bias

def along (m : Model ℚ) (u : Line ℚ) : ℚ := u.a * m.w0 + u.b * m.w1 + u.c * m.bias

def normSq (m : Model ℚ) : ℚ := m.w0 ^ 2 + m.w1 ^ 2 + m.bias ^ 2

theorem predict_eq (m : Model ℚ) (x y : ℚ) :
    m.predict x y = if 0 ≤ m.score x y then 1 else -1 := by
  by_cases above : 0 ≤ m.score x y <;> simp only [score] at above <;> simp [predict, score, above]

theorem along_sq_le (m : Model ℚ) (u : Line ℚ) : m.along u ^ 2 ≤ u.normSq * m.normSq := by
  have lagrange : u.normSq * m.normSq - m.along u ^ 2 =
      (u.a * m.w1 - u.b * m.w0) ^ 2 + (u.a * m.bias - u.c * m.w0) ^ 2 +
        (u.b * m.bias - u.c * m.w1) ^ 2 := by
    simp only [Line.normSq, normSq, along]
    ring
  have squares : 0 ≤ (u.a * m.w1 - u.b * m.w0) ^ 2 + (u.a * m.bias - u.c * m.w0) ^ 2 +
      (u.b * m.bias - u.c * m.w1) ^ 2 := by positivity
  linarith

theorem label_mul_score_nonpos {m : Model ℚ} {p : Point ℚ} (sign : p.label = 1 ∨ p.label = -1)
    (wrong : m.predict p.x p.y ≠ p.label) : (p.label : ℚ) * m.score p.x p.y ≤ 0 := by
  rw [predict_eq] at wrong
  split at wrong
  · rename_i nonneg
    have negative : p.label = -1 := by omega
    rw [negative]
    push_cast
    linarith
  · rename_i below
    have positive : p.label = 1 := by omega
    rw [positive]
    push_cast
    linarith [lt_of_not_ge below]

variable {m : Model ℚ} {p : Point ℚ} {u : Line ℚ} {γ : ℚ}

/-- A mistake moves the weights and bias at least `rate · γ` forward along a direction that
separates the point with margin `γ`. -/
theorem along_learn_wrong (nonneg : 0 ≤ m.rate) (margin : γ ≤ (p.label : ℚ) * u.eval p.x p.y)
    (wrong : m.predict p.x p.y ≠ p.label) : m.along u + m.rate * γ ≤ (m.learn p).1.along u := by
  have moved : (m.learn p).1.along u = m.along u + m.rate * ((p.label : ℚ) * u.eval p.x p.y) := by
    rw [learn_of_wrong wrong]
    simp only [along, Line.eval, ofInt_rat]
    ring
  rw [moved]
  have scaled := mul_le_mul_of_nonneg_left margin nonneg
  linarith

theorem normSq_learn_wrong (nonneg : 0 ≤ m.rate) (sign : p.label = 1 ∨ p.label = -1)
    (wrong : m.predict p.x p.y ≠ p.label) :
    (m.learn p).1.normSq ≤ m.normSq + m.rate ^ 2 * (p.x ^ 2 + p.y ^ 2 + 1) := by
  have unit : (p.label : ℚ) ^ 2 = 1 := by rcases sign with h | h <;> rw [h] <;> norm_num
  have grown : (m.learn p).1.normSq = m.normSq +
      2 * m.rate * ((p.label : ℚ) * m.score p.x p.y) +
        m.rate ^ 2 * (p.label : ℚ) ^ 2 * (p.x ^ 2 + p.y ^ 2 + 1) := by
    rw [learn_of_wrong wrong]
    simp only [normSq, score, ofInt_rat]
    ring
  have against := mul_nonpos_of_nonneg_of_nonpos nonneg (label_mul_score_nonpos sign wrong)
  rw [grown, unit, mul_one]
  linarith

/-! ## Epochs -/

section Generic

variable {α : Type} [Scalar α]

def visit (acc : Model α × Nat) (p : Point α) : Model α × Nat :=
  ((acc.1.learn p).1, if (acc.1.learn p).2 then acc.2 + 1 else acc.2)

theorem step_eq (m : Model α) :
    m.step = ({ (m.training.foldl visit (m, 0)).1 with
      epoch := (m.training.foldl visit (m, 0)).1.epoch + 1 }, (m.training.foldl visit (m, 0)).2) :=
  rfl

def afterEpochs (m : Model α) : Nat → Model α
  | 0 => m
  | n + 1 => m.step.1.afterEpochs n

def mistakesIn (m : Model α) : Nat → Nat
  | 0 => 0
  | n + 1 => m.step.2 + m.step.1.mistakesIn n

theorem afterEpochs_succ' (m : Model α) (n : Nat) :
    m.afterEpochs (n + 1) = (m.afterEpochs n).step.1 := by
  induction n generalizing m with
  | zero => rfl
  | succ n ih => exact ih m.step.1

theorem learn_rate (m : Model α) (p : Point α) : (m.learn p).1.rate = m.rate := by
  unfold learn
  split <;> rfl

theorem learn_training (m : Model α) (p : Point α) : (m.learn p).1.training = m.training := by
  unfold learn
  split <;> rfl

theorem le_foldl_visit (ps : List (Point α)) (acc : Model α × Nat) :
    acc.2 ≤ (ps.foldl visit acc).2 := by
  induction ps generalizing acc with
  | nil => exact Nat.le_refl _
  | cons p rest ih =>
    have counted : acc.2 ≤ (visit acc p).2 := by
      simp only [visit]
      split <;> omega
    exact counted.trans (ih (visit acc p))

theorem foldl_visit_clean {ps : List (Point α)} {m : Model α} {k : Nat}
    (clean : (ps.foldl visit (m, k)).2 = k) :
    (ps.foldl visit (m, k)).1 = m ∧ ∀ p ∈ ps, m.predict p.x p.y = p.label := by
  induction ps with
  | nil => exact ⟨rfl, by simp⟩
  | cons q rest ih =>
    by_cases right : m.predict q.x q.y = q.label
    · have same : visit (m, k) q = (m, k) := by simp [visit, learn_of_right right]
      rw [List.foldl_cons, same] at clean ⊢
      obtain ⟨kept, rest_right⟩ := ih clean
      refine ⟨kept, fun p member => ?_⟩
      rcases List.mem_cons.mp member with rfl | later
      · exact right
      · exact rest_right p later
    · -- a mistake at `q` counts, and counts are never taken back
      have counted : visit (m, k) q = ((m.learn q).1, k + 1) := by
        simp [visit, learn_of_wrong right]
      have more := le_foldl_visit rest (visit (m, k) q)
      rw [List.foldl_cons] at clean
      rw [counted] at more
      rw [counted] at clean
      omega

theorem step_clean {m : Model α} (clean : m.step.2 = 0) :
    m.step.1 = { m with epoch := m.epoch + 1 } ∧ ∀ p ∈ m.training, m.predict p.x p.y = p.label := by
  rw [step_eq] at clean ⊢
  obtain ⟨same, right⟩ := foldl_visit_clean clean
  refine ⟨?_, right⟩
  simp only [same]

theorem le_mistakesIn {m : Model α} {n : Nat} (busy : ∀ i < n, 0 < (m.afterEpochs i).step.2) :
    n ≤ m.mistakesIn n := by
  induction n generalizing m with
  | zero => exact Nat.le_refl 0
  | succ n ih =>
    have first : 0 < m.step.2 := busy 0 (Nat.succ_pos n)
    have later : n ≤ m.step.1.mistakesIn n := ih fun i early => busy (i + 1) (by omega)
    simp only [mistakesIn]
    omega

theorem exists_clean_epoch {m : Model α} {K : Nat} (bounded : ∀ n, m.mistakesIn n ≤ K) :
    ∃ e ≤ K, (m.afterEpochs e).step.2 = 0 := by
  by_contra none
  have busy : ∀ i < K + 1, 0 < (m.afterEpochs i).step.2 :=
    fun i early => Nat.pos_of_ne_zero fun clean => none ⟨i, by omega, clean⟩
  have counted : K + 1 ≤ m.mistakesIn (K + 1) := le_mistakesIn busy
  have capped := bounded (K + 1)
  omega

theorem train_go_quiet (m : Model α) (epochs : Int) (period : Period) (reports : List Nat)
    (e k : Nat) :
    train.go epochs false period m reports e (k + 1) =
      if m.step.2 = 0 then ⟨m.step.1, reports, none⟩
      else train.go epochs false period m.step.1 reports (e + 1) k := by
  simp [train.go]

theorem train_go_stops {m : Model α} {epochs : Int} {period : Period} {reports : List Nat}
    {e j k : Nat} (busy : ∀ i < j, (m.afterEpochs i).step.2 ≠ 0)
    (clean : (m.afterEpochs j).step.2 = 0) (room : j < k) :
    train.go epochs false period m reports e k = ⟨m.afterEpochs (j + 1), reports, none⟩ := by
  induction j generalizing m e k with
  | zero =>
    obtain ⟨k, rfl⟩ : ∃ left, k = left + 1 := ⟨k - 1, by omega⟩
    rw [train_go_quiet, if_pos (show m.step.2 = 0 from clean)]
    rfl
  | succ j ih =>
    obtain ⟨k, rfl⟩ : ∃ left, k = left + 1 := ⟨k - 1, by omega⟩
    rw [train_go_quiet, if_neg (show m.step.2 ≠ 0 from busy 0 (Nat.succ_pos j))]
    exact ih (fun i early => busy (i + 1) (by omega)) clean (by omega)

end Generic

/-! ## Two measures along a run -/

/-- From `acc` to `acc'` the rate and the training points stay, mistakes are only added, and per
added mistake the weights and bias move at least `rate · γ` along `u` while their squared length
grows at most `rate² · R`. -/
structure Advances (u : Line ℚ) (γ R : ℚ) (acc acc' : Model ℚ × Nat) : Prop where
  rate : acc'.1.rate = acc.1.rate
  training : acc'.1.training = acc.1.training
  count : acc.2 ≤ acc'.2
  along : acc.1.along u + ((acc'.2 : ℚ) - acc.2) * acc.1.rate * γ ≤ acc'.1.along u
  normSq : acc'.1.normSq ≤ acc.1.normSq + ((acc'.2 : ℚ) - acc.2) * acc.1.rate ^ 2 * R

variable {R : ℚ} {acc acc' acc'' : Model ℚ × Nat}

theorem Advances.refl (acc : Model ℚ × Nat) : Advances u γ R acc acc :=
  ⟨rfl, rfl, Nat.le_refl _, by simp, by simp⟩

theorem Advances.trans (first : Advances u γ R acc acc') (second : Advances u γ R acc' acc'') :
    Advances u γ R acc acc'' where
  rate := second.rate.trans first.rate
  training := second.training.trans first.training
  count := first.count.trans second.count
  along := by
    have early := first.along
    have late := second.along
    rw [first.rate] at late
    linarith
  normSq := by
    have early := first.normSq
    have late := second.normSq
    rw [first.rate] at late
    linarith

theorem Advances.shift {m m' : Model ℚ} {k : Nat} (adv : Advances u γ R (m, 0) (m', k)) (j : Nat) :
    Advances u γ R (m, j) (m', j + k) where
  rate := adv.rate
  training := adv.training
  count := Nat.le_add_right j k
  along := by
    have moved := adv.along
    push_cast at moved ⊢
    linarith
  normSq := by
    have grown := adv.normSq
    push_cast at grown ⊢
    linarith

theorem advances_visit (sign : p.label = 1 ∨ p.label = -1)
    (margin : γ ≤ (p.label : ℚ) * u.eval p.x p.y) (bound : p.x ^ 2 + p.y ^ 2 + 1 ≤ R)
    (nonneg : 0 ≤ acc.1.rate) : Advances u γ R acc (visit acc p) := by
  by_cases right : acc.1.predict p.x p.y = p.label
  · have same : visit acc p = acc := by simp [visit, learn_of_right right]
    rw [same]
    exact Advances.refl acc
  · have moved : visit acc p = ((acc.1.learn p).1, acc.2 + 1) := by
      simp [visit, learn_of_wrong right]
    rw [moved]
    have forward := along_learn_wrong nonneg margin right
    have grown := normSq_learn_wrong nonneg sign right
    have spread : acc.1.rate ^ 2 * (p.x ^ 2 + p.y ^ 2 + 1) ≤ acc.1.rate ^ 2 * R :=
      mul_le_mul_of_nonneg_left bound (sq_nonneg _)
    refine ⟨learn_rate _ _, learn_training _ _, Nat.le_succ _, ?_, ?_⟩
    · push_cast
      linarith
    · push_cast
      linarith

theorem advances_foldl {ps : List (Point ℚ)} (separated : Separates u γ ps)
    (bound : ∀ p ∈ ps, p.x ^ 2 + p.y ^ 2 + 1 ≤ R) (acc : Model ℚ × Nat)
    (nonneg : 0 ≤ acc.1.rate) : Advances u γ R acc (ps.foldl visit acc) := by
  induction ps generalizing acc with
  | nil => exact Advances.refl acc
  | cons p rest ih =>
    obtain ⟨sign, margin⟩ := separated p List.mem_cons_self
    have first := advances_visit sign margin (bound p List.mem_cons_self) nonneg
    have later := ih (fun q member => separated q (List.mem_cons_of_mem p member))
      (fun q member => bound q (List.mem_cons_of_mem p member)) (visit acc p)
      (first.rate ▸ nonneg)
    exact first.trans later

theorem advances_step (separated : Separates u γ m.training)
    (bound : ∀ p ∈ m.training, p.x ^ 2 + p.y ^ 2 + 1 ≤ R) (nonneg : 0 ≤ m.rate) :
    Advances u γ R (m, 0) (m.step.1, m.step.2) := by
  have visited := advances_foldl separated bound (m, 0) nonneg
  rw [step_eq]
  exact ⟨visited.rate, visited.training, visited.count, visited.along, visited.normSq⟩

/-- A run of `n` epochs over training points separated with margin `γ`. The induction runs over
the epochs; each keeps the rate and the points, so the next one starts from the same hypotheses. -/
theorem advances_epochs (separated : Separates u γ m.training)
    (bound : ∀ p ∈ m.training, p.x ^ 2 + p.y ^ 2 + 1 ≤ R) (nonneg : 0 ≤ m.rate) (n : Nat) :
    Advances u γ R (m, 0) (m.afterEpochs n, m.mistakesIn n) := by
  induction n generalizing m with
  | zero => exact Advances.refl (m, 0)
  | succ n ih =>
    have first := advances_step separated bound nonneg
    have later := ih (first.training ▸ separated) (first.training ▸ bound) (first.rate ▸ nonneg)
    exact first.trans (later.shift m.step.2)

/-! ## The bound -/

/-- Novikoff's count: `T` steps that each add at least `g > 0` to a quantity starting at `A₀`,
whose square stays at most `D + T · c`, are at most this many. The square grows with `T²` and the
cap only with `T`, so `T` is bounded; `A₀` may start below zero. -/
theorem count_le_of_growth {A₀ A D c g T : ℚ} (positive : 0 < g) (hc : 0 ≤ c) (hD : 0 ≤ D)
    (hT : 0 ≤ T) (grows : A₀ + T * g ≤ A) (capped : A ^ 2 ≤ D + T * c) :
    T ≤ 1 + (D + c + 2 * |A₀| * g) / g ^ 2 + |A₀| / g := by
  have below := neg_abs_le A₀
  have slack : 0 ≤ (D + c + 2 * |A₀| * g) / g ^ 2 := by positivity
  have start : 0 ≤ |A₀| / g := by positivity
  by_cases reached : 0 ≤ A₀ + T * g
  · have squared : (A₀ + T * g) ^ 2 ≤ D + T * c := (pow_le_pow_left₀ reached grows 2).trans capped
    -- expanding the square: `T² g² ≤ D + T (c + 2 |A₀| g)`
    have expanded : (A₀ + T * g) ^ 2 = A₀ ^ 2 + 2 * A₀ * (T * g) + T * (T * g ^ 2) := by ring
    have cross : 0 ≤ T * g * (|A₀| + A₀) :=
      mul_nonneg (mul_nonneg hT positive.le) (by linarith)
    have quadratic : T * (T * g ^ 2) ≤ D + T * (c + 2 * |A₀| * g) := by
      linarith [sq_nonneg A₀]
    by_cases small : T ≤ 1
    · linarith
    · have large : 1 < T := lt_of_not_ge small
      have linear : T * g ^ 2 ≤ D + (c + 2 * |A₀| * g) := by
        have grown : D ≤ T * D := le_mul_of_one_le_left hD large.le
        have scaled : T * (T * g ^ 2) ≤ T * (D + (c + 2 * |A₀| * g)) := by
          calc T * (T * g ^ 2) ≤ D + T * (c + 2 * |A₀| * g) := quadratic
            _ ≤ T * D + T * (c + 2 * |A₀| * g) := by linarith
            _ = T * (D + (c + 2 * |A₀| * g)) := by ring
        exact le_of_mul_le_mul_left scaled (by linarith)
      have divided : T ≤ (D + c + 2 * |A₀| * g) / g ^ 2 := by
        rw [le_div_iff₀ (by positivity)]
        linarith
      linarith
  · -- the quantity has not yet climbed above zero, so few steps were taken
    have early : T ≤ |A₀| / g := by
      rw [le_div_iff₀ positive]
      linarith
    linarith

def mistakeBound (u : Line ℚ) (γ : ℚ) (points : List (Point ℚ)) (m : Model ℚ) : ℚ :=
  1 + (u.normSq * m.normSq + u.normSq * m.rate ^ 2 * spread points +
      2 * |m.along u| * (m.rate * γ)) / (m.rate * γ) ^ 2 + |m.along u| / (m.rate * γ)

/-- No run of epochs makes more mistakes than the bound: along `u` the weights and bias gain
`rate · γ` per mistake, their squared length grows at most `rate² · spread` per mistake, and by
the Cauchy–Schwarz inequality the first cannot outrun the second for long. -/
theorem mistakesIn_le_bound (separated : Separates u γ m.training) (margin : 0 < γ)
    (positive : 0 < m.rate) (n : Nat) :
    (m.mistakesIn n : ℚ) ≤ mistakeBound u γ m.training m := by
  have adv := advances_epochs separated (fun _ member => le_spread member) positive.le n
  have forward := adv.along
  have grown := adv.normSq
  simp only [Nat.cast_zero, sub_zero] at forward grown
  have direction : 0 ≤ u.normSq := by
    simp only [Line.normSq]
    positivity
  have capped : (m.afterEpochs n).along u ^ 2 ≤
      u.normSq * m.normSq + (m.mistakesIn n : ℚ) * (u.normSq * m.rate ^ 2 * spread m.training) := by
    calc (m.afterEpochs n).along u ^ 2
        ≤ u.normSq * (m.afterEpochs n).normSq := along_sq_le _ _
      _ ≤ u.normSq * (m.normSq + (m.mistakesIn n : ℚ) * m.rate ^ 2 * spread m.training) :=
          mul_le_mul_of_nonneg_left grown direction
      _ = u.normSq * m.normSq + (m.mistakesIn n : ℚ) * (u.normSq * m.rate ^ 2 * spread m.training) := by
          ring
  have gain : m.along u + (m.mistakesIn n : ℚ) * (m.rate * γ) ≤ (m.afterEpochs n).along u := by
    linarith
  have bound := count_le_of_growth (mul_pos positive margin)
    (by have := spread_nonneg m.training; positivity) (mul_nonneg direction (by unfold normSq; positivity))
    (Nat.cast_nonneg _) gain capped
  unfold mistakeBound
  linarith

end Model

/-- The perceptron converges on points labelled by a line, in exact arithmetic. For training
points labelled by the side of some line, a positive rate and any initial weights and bias, there
is a bound, set by the points, the rate and the initial weights and bias alone, on the mistakes,
that is the weight updates, of every run of epochs; some epoch within it makes no mistake; and
training for more epochs than the bound stops right after the first such epoch, with every
training point predicted right. -/
theorem perceptron_converges (training : List (Point ℚ)) (rate w0 w1 bias : ℚ)
    (labelled : ∃ line : Line ℚ, ∀ p ∈ training, p.label = line.side p.x p.y) (positive : 0 < rate) :
    ∃ K : Nat, ∀ m : Model ℚ, m.training = training → m.rate = rate → m.w0 = w0 → m.w1 = w1 →
      m.bias = bias →
        (∀ n, m.mistakesIn n ≤ K) ∧ (∃ e ≤ K, (m.afterEpochs e).step.2 = 0) ∧
        ∀ (epochs : Int) (period : Period), K < epochs →
          ∃ e ≤ K, (∀ i < e, (m.afterEpochs i).step.2 ≠ 0) ∧ (m.afterEpochs e).step.2 = 0 ∧
            (m.train epochs false period).model = m.afterEpochs (e + 1) ∧
            (m.train epochs false period).failure = none ∧
            ∀ p ∈ (m.train epochs false period).model.training,
              (m.train epochs false period).model.predict p.x p.y = p.label := by
  obtain ⟨line, labelled⟩ := labelled
  obtain ⟨u, γ, margin, separated⟩ := separates_of_labelled labelled
  -- the bound reads only the rate, the weights and the bias of a model
  let start : Model ℚ := ⟨0, 0, rate, line, w0, w1, bias, 0, training, []⟩
  obtain ⟨K, above⟩ := exists_nat_ge (Model.mistakeBound u γ training start)
  refine ⟨K, fun m trained rated first second biased => ?_⟩
  subst trained rated first second biased
  have same : Model.mistakeBound u γ m.training m = Model.mistakeBound u γ m.training start := rfl
  have bounded : ∀ n, m.mistakesIn n ≤ K := by
    intro n
    have le := (Model.mistakesIn_le_bound separated margin positive n).trans (same ▸ above)
    exact_mod_cast le
  obtain ⟨e, within, clean⟩ := Model.exists_clean_epoch bounded
  refine ⟨bounded, ⟨e, within, clean⟩, fun epochs period more => ?_⟩
  -- training stops after the first epoch without mistakes
  classical
  have found : ∃ j, (m.afterEpochs j).step.2 = 0 := ⟨e, clean⟩
  let j := Nat.find found
  have first : (m.afterEpochs j).step.2 = 0 := Nat.find_spec found
  have busy : ∀ i < j, (m.afterEpochs i).step.2 ≠ 0 := fun i early => Nat.find_min found early
  have early : j ≤ K := (Nat.find_min' found clean).trans within
  have stops : m.train epochs false period = ⟨m.afterEpochs (j + 1), [], none⟩ :=
    Model.train_go_stops busy first (by omega)
  obtain ⟨kept, right⟩ := Model.step_clean first
  refine ⟨j, early, busy, first, by rw [stops], by rw [stops], ?_⟩
  rw [stops, Model.afterEpochs_succ', kept]
  exact right

theorem opposite_points_converge :
    (∃ line : Line ℚ, ∀ p ∈ [(⟨0, 1, 0, 1⟩ : Point ℚ), ⟨1, -1, 0, -1⟩],
        p.label = line.side p.x p.y) ∧ (0 : ℚ) < 1 / 10 ∧
      ∃ K : Nat, ∀ m : Model ℚ, m.training = [⟨0, 1, 0, 1⟩, ⟨1, -1, 0, -1⟩] → m.rate = 1 / 10 →
        m.w0 = 0 → m.w1 = 0 → m.bias = 0 →
          (∀ n, m.mistakesIn n ≤ K) ∧ (∃ e ≤ K, (m.afterEpochs e).step.2 = 0) ∧
          ∀ (epochs : Int) (period : Period), K < epochs →
            ∃ e ≤ K, (∀ i < e, (m.afterEpochs i).step.2 ≠ 0) ∧ (m.afterEpochs e).step.2 = 0 ∧
              (m.train epochs false period).model = m.afterEpochs (e + 1) ∧
              (m.train epochs false period).failure = none ∧
              ∀ p ∈ (m.train epochs false period).model.training,
                (m.train epochs false period).model.predict p.x p.y = p.label := by
  have labelled : ∃ line : Line ℚ, ∀ p ∈ [(⟨0, 1, 0, 1⟩ : Point ℚ), ⟨1, -1, 0, -1⟩],
      p.label = line.side p.x p.y := by
    refine ⟨⟨1, 0, 0⟩, fun p member => ?_⟩
    simp only [List.mem_cons, List.not_mem_nil, or_false] at member
    rcases member with rfl | rfl <;> norm_num [Line.side_eq, Line.eval]
  have positive : (0 : ℚ) < 1 / 10 := by norm_num
  exact ⟨labelled, positive, perceptron_converges _ _ _ _ _ labelled positive⟩

end AgentLab.Perceptron
