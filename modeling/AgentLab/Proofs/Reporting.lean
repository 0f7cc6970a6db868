import AgentLab.Proofs.Training
/-!
Progress reports during training. With reports on and a whole period `k` other than zero, epoch
`e` of a run, counted from zero, is reported when `|k|` divides `e + 1` or when it is the last
epoch asked for; the epoch without mistakes that stops the run is reported once more, so it is
reported twice when it was due anyway. A period of zero fails at the first test, which comes
right after the first epoch. The remainder test follows the sign of the period, and a multiple of
`k` is a multiple of `|k|`, so negative periods report as their absolute value does.
-/

namespace AgentLab.Perceptron

theorem Period.due_count (n : Nat) {k : Int} (nonzero : k ≠ 0) :
    Period.due n (.count k) = .ok (decide (k.natAbs ∣ n)) := by
  have divides : ((n : Int) % k = 0) ↔ k.natAbs ∣ n := by
    rw [← Int.dvd_iff_emod_eq_zero, Int.dvd_natCast]
  simp only [Period.due, if_neg nonzero, Except.ok.injEq]
  exact Bool.eq_iff_iff.mpr (by simpa using divides)

namespace Model

variable {α : Type} [Scalar α]

/-- Epoch `e` of a run of `epochs`, counted from zero, is reported when `|k|` divides `e + 1` or
it is the last. -/
def Due (epochs k : Int) (e : Nat) : Prop :=
  k.natAbs ∣ e + 1 ∨ (e : Int) = epochs - 1

instance (epochs k : Int) (e : Nat) : Decidable (Due epochs k e) :=
  inferInstanceAs (Decidable (_ ∨ _))

def dueReports (start : Nat) (epochs k : Int) (first n : Nat) : List Nat :=
  ((List.range' first n).filter fun e => Due epochs k e).map (start + · + 1)

theorem dueReports_succ (start : Nat) (epochs k : Int) (first n : Nat) :
    dueReports start epochs k first (n + 1) =
      (if Due epochs k first then [start + first + 1] else []) ++
        dueReports start epochs k (first + 1) n := by
  by_cases due : Due epochs k first <;> simp [dueReports, List.range'_succ, due]

theorem dueReports_concat (start : Nat) (epochs k : Int) (first n : Nat) :
    dueReports start epochs k first (n + 1) =
      dueReports start epochs k first n ++
        (if Due epochs k (first + n) then [start + (first + n) + 1] else []) := by
  by_cases due : Due epochs k (first + n) <;> simp [dueReports, List.range'_concat, due]

theorem train_go_reporting {k : Int} (nonzero : k ≠ 0) (epochs : Int) (m : Model α)
    (reports : List Nat) (e left : Nat) :
    train.go epochs true (.count k) m reports e (left + 1) =
      let reports := if Due epochs k e then reports ++ [m.step.1.epoch] else reports
      if m.step.2 = 0 then ⟨m.step.1, reports ++ [m.step.1.epoch], none⟩
      else train.go epochs true (.count k) m.step.1 reports (e + 1) left := by
  simp [train.go, Period.due_count _ nonzero, Due, Except.map]

theorem train_go_busy {k : Int} (nonzero : k ≠ 0) (epochs : Int) (start : Nat) {m : Model α}
    {reports : List Nat} {e left j : Nat} (busy : ∀ i < j, (m.afterEpochs i).step.2 ≠ 0)
    (counted : m.epoch = start + e) (room : j ≤ left) :
    train.go epochs true (.count k) m reports e left =
      train.go epochs true (.count k) (m.afterEpochs j)
        (reports ++ dueReports start epochs k e j) (e + j) (left - j) := by
  induction j generalizing m reports e left with
  | zero => simp [dueReports, afterEpochs]
  | succ j ih =>
    obtain ⟨left, rfl⟩ : ∃ rest, left = rest + 1 := ⟨left - 1, by omega⟩
    have first : m.step.2 ≠ 0 := busy 0 (Nat.succ_pos j)
    rw [train_go_reporting nonzero, if_neg first]
    rw [ih (fun i early => busy (i + 1) (by omega)) (by simp [counted]; omega) (by omega)]
    simp only [dueReports_succ, afterEpochs, step_epoch, counted]
    split <;> simp [Nat.add_assoc, Nat.add_comm 1 j]

theorem train_zero_period (m : Model α) {epochs : Int} (some_epoch : 1 ≤ epochs) :
    m.train epochs true (.count 0) =
      ⟨m.step.1, [], some ⟨.zeroDivision, "integer modulo by zero"⟩⟩ := by
  obtain ⟨left, counted⟩ : ∃ left, epochs.toNat = left + 1 := ⟨epochs.toNat - 1, by omega⟩
  simp [train, counted, train.go, Period.due, Except.map]

/-- Training with reports on, for any number of epochs and any whole period. Let `z` be the first
epoch of the run without mistakes, or any epoch past the last asked for when the run has none
among them. With a period `k ≠ 0`, training runs `n = min (max epochs 0) (z + 1)` epochs; it
reports, in order, the epoch count after each epoch `e < n` for which `|k|` divides `e + 1` or
which is the last asked for, and once more the count after epoch `z` when that epoch is among those
asked for. With a period of zero it fails right after the first epoch, before any report. -/
theorem train_reports (m : Model α) (epochs : Int) (z : Nat)
    (busy : ∀ i < z, (m.afterEpochs i).step.2 ≠ 0)
    (stop : (m.afterEpochs z).step.2 = 0 ∨ epochs ≤ z) :
    (∀ k ≠ 0, m.train epochs true (.count k) =
        ⟨m.afterEpochs (min epochs.toNat (z + 1)),
          dueReports m.epoch epochs k 0 (min epochs.toNat (z + 1)) ++
            (if (z : Int) < epochs then [m.epoch + z + 1] else []), none⟩ ∧
      (m.afterEpochs (min epochs.toNat (z + 1))).epoch = m.epoch + min epochs.toNat (z + 1)) ∧
    (1 ≤ epochs →
      m.train epochs true (.count 0) =
        ⟨m.step.1, [], some ⟨.zeroDivision, "integer modulo by zero"⟩⟩) := by
  refine ⟨fun k nonzero => ⟨?_, afterEpochs_epoch m _⟩, train_zero_period m⟩
  rcases Nat.lt_or_ge z epochs.toNat with early | late
  · -- the run stops after epoch `z`, which made no mistake
    have clean : (m.afterEpochs z).step.2 = 0 := stop.resolve_right (by omega)
    obtain ⟨left, counted⟩ : ∃ left, epochs.toNat - z = left + 1 :=
      ⟨epochs.toNat - z - 1, by omega⟩
    have ran : min epochs.toNat (z + 1) = z + 1 := by omega
    rw [train, train_go_busy nonzero epochs m.epoch busy (by omega) early.le, counted,
      train_go_reporting nonzero, if_pos clean, ran, ← afterEpochs_succ', dueReports_concat,
      if_pos (show (z : Int) < epochs by omega)]
    by_cases due : Due epochs k z <;> simp [afterEpochs_succ', due]
  · -- every epoch asked for makes mistakes, so all of them run
    have ran : min epochs.toNat (z + 1) = epochs.toNat := by omega
    rw [train, train_go_busy nonzero epochs m.epoch (j := epochs.toNat)
      (fun i early => busy i (by omega)) (by omega) le_rfl, ran, Nat.sub_self,
      if_neg (show ¬ (z : Int) < epochs by omega)]
    simp [train.go]

end Model

/-- A point the initial weights get wrong and the first update gets right: the run stops after
its second epoch, which is also due with a period of two, so that epoch is reported twice. -/
theorem corrected_point_reported_twice :
    let m : Model ℚ := ⟨1, 0, 1, ⟨1, 0, 0⟩, -1, 0, 0, 0, [⟨0, 1, 0, 1⟩], []⟩
    (∀ i < 1, (m.afterEpochs i).step.2 ≠ 0) ∧
      ((m.afterEpochs 1).step.2 = 0 ∨ (3 : Int) ≤ (1 : Nat)) ∧
      (m.train 3 true (.count 2)).reports = [2, 2] := by
  intro m
  have busy : ∀ i < 1, (m.afterEpochs i).step.2 ≠ 0 := by decide +kernel
  have clean : (m.afterEpochs 1).step.2 = 0 := by decide +kernel
  refine ⟨busy, .inl clean, ?_⟩
  rw [((Model.train_reports m 3 1 busy (.inl clean)).1 2 (by decide)).1]
  decide +kernel

end AgentLab.Perceptron
