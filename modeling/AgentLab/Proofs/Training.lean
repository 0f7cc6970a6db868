import AgentLab.Proofs.Convergence
/-!
Training that stops early. An epoch in which the perceptron predicts every training point right
makes no update, and predictions read only the weights and the bias, so every later epoch is such
an epoch too. Stopping after the first one therefore leaves the weights and bias that running every
epoch would leave. Nothing here depends on the arithmetic: it holds for doubles, NaN and negative
rates included, as for any other scalars.
-/

namespace AgentLab.Perceptron

namespace Model

variable {α : Type} [Scalar α] {m : Model α}

def Settled (m : Model α) : Prop :=
  ∀ p ∈ m.training, m.predict p.x p.y = p.label

theorem learn_epoch (m : Model α) (p : Point α) : (m.learn p).1.epoch = m.epoch := by
  unfold learn
  split <;> rfl

theorem foldl_visit_epoch (ps : List (Point α)) (acc : Model α × Nat) :
    (ps.foldl visit acc).1.epoch = acc.1.epoch := by
  induction ps generalizing acc with
  | nil => rfl
  | cons p rest ih => rw [List.foldl_cons, ih, visit, learn_epoch]

@[simp] theorem step_epoch (m : Model α) : m.step.1.epoch = m.epoch + 1 := by
  rw [step_eq]
  simp only [foldl_visit_epoch]

@[simp] theorem afterEpochs_epoch (m : Model α) (n : Nat) : (m.afterEpochs n).epoch = m.epoch + n := by
  induction n generalizing m with
  | zero => rfl
  | succ n ih =>
    rw [afterEpochs, ih, step_epoch]
    omega

theorem afterEpochs_add (m : Model α) (a b : Nat) :
    m.afterEpochs (a + b) = (m.afterEpochs a).afterEpochs b := by
  induction a generalizing m with
  | zero => rw [Nat.zero_add]; rfl
  | succ a ih => rw [Nat.add_right_comm, afterEpochs, ih]; rfl

theorem foldl_visit_right {ps : List (Point α)} (right : ∀ p ∈ ps, m.predict p.x p.y = p.label)
    (k : Nat) : ps.foldl visit (m, k) = (m, k) := by
  induction ps with
  | nil => rfl
  | cons p rest ih =>
    have kept : visit (m, k) p = (m, k) := by
      simp [visit, learn_of_right (right p List.mem_cons_self)]
    rw [List.foldl_cons, kept, ih fun q member => right q (List.mem_cons_of_mem p member)]

theorem step_of_settled (settled : m.Settled) : m.step = ({ m with epoch := m.epoch + 1 }, 0) := by
  rw [step_eq, foldl_visit_right settled]

theorem Settled.with_epoch (settled : m.Settled) (e : Nat) : ({ m with epoch := e }).Settled :=
  settled

theorem settled_of_clean (clean : m.step.2 = 0) : m.step.1.Settled := by
  obtain ⟨kept, right⟩ := step_clean clean
  rw [kept]
  exact Settled.with_epoch right _

theorem afterEpochs_settled (settled : m.Settled) (n : Nat) :
    m.afterEpochs n = { m with epoch := m.epoch + n } := by
  induction n generalizing m with
  | zero => rfl
  | succ n ih =>
    rw [afterEpochs, step_of_settled settled, ih (settled.with_epoch _)]
    simp only [Nat.add_assoc, Nat.add_comm 1 n]

theorem train_go_quiet_run (epochs : Int) (period : Period) (reports : List Nat) (m : Model α)
    (e k : Nat) : ∃ n ≤ k, train.go epochs false period m reports e k = ⟨m.afterEpochs n, reports, none⟩ ∧
      (n < k → (m.afterEpochs n).Settled) := by
  induction k generalizing m e with
  | zero => exact ⟨0, le_refl 0, rfl, fun early => absurd early (Nat.lt_irrefl 0)⟩
  | succ k ih =>
    rw [train_go_quiet]
    split
    · rename_i clean
      exact ⟨1, by omega, rfl, fun _ => settled_of_clean clean⟩
    · obtain ⟨n, within, run, settled⟩ := ih m.step.1 (e + 1)
      exact ⟨n + 1, by omega, run, fun early => settled (by omega)⟩

/-- Training without reports leaves the weights and bias that running every epoch it was given
leaves, for any model and any number of epochs. When it stops before them, every training point is
predicted right, and every further epoch makes no mistake and changes nothing but the epoch. -/
theorem train_matches_steps (m : Model α) (epochs : Int) (period : Period) :
    let t := (m.train epochs false period).model
    (t.w0 = (m.afterEpochs epochs.toNat).w0 ∧ t.w1 = (m.afterEpochs epochs.toNat).w1 ∧
      t.bias = (m.afterEpochs epochs.toNat).bias) ∧
    ((t.epoch : Int) < m.epoch + epochs →
      t.Settled ∧ ∀ k, (t.afterEpochs k).step = ({ t with epoch := t.epoch + k + 1 }, 0)) := by
  intro t
  obtain ⟨n, within, run, settled⟩ := train_go_quiet_run epochs period [] m 0 epochs.toNat
  have stopped : t = m.afterEpochs n := by
    simp only [t, train, run]
  -- the epochs after the stop only count themselves
  have rest : m.afterEpochs epochs.toNat = { t with epoch := t.epoch + (epochs.toNat - n) } := by
    rcases Nat.lt_or_ge n epochs.toNat with early | full
    · rw [stopped, ← afterEpochs_settled (settled early), ← afterEpochs_add,
        Nat.add_sub_cancel' within]
    · have same : n = epochs.toNat := by omega
      rw [stopped, same, Nat.sub_self, Nat.add_zero]
  refine ⟨by simp [rest], fun early => ?_⟩
  have settledT : t.Settled := by
    rw [stopped] at early ⊢
    simp only [afterEpochs_epoch, Nat.cast_add] at early
    exact settled (by omega)
  refine ⟨settledT, fun k => ?_⟩
  rw [afterEpochs_settled settledT, step_of_settled (settledT.with_epoch _)]

end Model

end AgentLab.Perceptron
