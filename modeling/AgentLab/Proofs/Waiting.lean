import AgentLab.Proofs.Evaluation
/-!
Waiting for one task's outcome. The wait looks at the outcome before each round, so an outcome
already in is answered with no round run, and a task behind `p` others in a scheduled worker's
queue is answered after exactly `p + 1` rounds, provided the budget leaves a look after them. A
task never requested, or one waiting for a worker taken off the schedule, never gets an outcome:
the wait then spends its whole budget and times out.
-/

namespace AgentLab.Calc

namespace Session

variable {s : Session} {log : List Ticket} {target : Option Nat}

theorem wait_of_done {r : Except ArithFault Float} (done : target.bind s.outcome? = some (.done r))
    (budget : Nat) : wait target (budget + 1) s = .ok r s := by
  simp only [wait, done]

theorem wait_of_never_done
    (never : ∀ k r, target.bind (Session.step^[k] s).outcome? ≠ some (.done r)) (budget : Nat) :
    wait target budget s = .error .timedOut (Session.step^[budget] s) := by
  induction budget generalizing s with
  | zero => rfl
  | succ budget ih =>
    have later : ∀ k r, target.bind (Session.step^[k] s.step).outcome? ≠ some (.done r) := by
      intro k r
      rw [← Function.iterate_succ_apply]
      exact never (k + 1) r
    have looked : wait target (budget + 1) s = wait target budget s.step := by
      simp only [wait]
      split
      · rename_i r done
        exact absurd done (never 0 r)
      · rfl
    rw [looked, ih later, Function.iterate_succ_apply]

theorem iterate_outcome_absent (absent : target.bind s.outcome? = none) (k : Nat) :
    target.bind (Session.step^[k] s).outcome? = none := by
  cases target with
  | none => rfl
  | some id =>
    simp only [Option.bind_some, outcome?, Array.getElem?_eq_none_iff, iterate_step_size] at absent ⊢
    exact absent

theorem Tracks.iterate_queues_unscheduled {o : Op} (tracks : s.Tracks log)
    (unscheduled : o ∉ s.scheduled) (k : Nat) : (Session.step^[k] s).queues o = s.queues o := by
  induction k generalizing s with
  | zero => rfl
  | succ k ih =>
    rw [Function.iterate_succ_apply, ih tracks.step (by simpa using unscheduled),
      step_queues tracks.schedule, if_neg unscheduled]

theorem Tracks.iterate_stranded {o : Op} {t : Task} (tracks : s.Tracks log)
    (unscheduled : o ∉ s.scheduled) (queued : t ∈ s.queues o) (k : Nat) :
    (Session.step^[k] s).outcome? t.id = some .pending := by
  rw [(tracks.iterate k).pending]
  refine ⟨o, ?_⟩
  rw [queuedIds, tracks.iterate_queues_unscheduled unscheduled]
  exact List.mem_map_of_mem queued

/-- Waiting for a task with a budget of `k` rounds, for any integer `k`; a budget below one allows
no look at all. On a tracked session a final outcome is answered at once, with no round run; a
task behind `p` others in the queue of a scheduled worker is answered with its worker's result
after exactly `p + 1` rounds when `p ≤ k - 2`; and in every other case (no budget, a task never
requested, a task waiting for a worker off the schedule, or one with `p ≥ k - 1`) the wait times
out after exactly `max k 0` rounds. -/
theorem wait_rounds (tracks : s.Tracks log) (target : Option Nat) (k : Int) :
    (∀ r, target.bind s.outcome? = some (.done r) → 1 ≤ k → wait target k.toNat s = .ok r s) ∧
    (∀ o t before after, target = some t.id → o ∈ s.scheduled →
      s.queues o = before ++ t :: after → (before.length : Int) ≤ k - 2 →
        wait target k.toNat s = .ok (o.apply t.a t.b) (Session.step^[before.length + 1] s)) ∧
    (k ≤ 0 ∨ target.bind s.outcome? = none ∨
        (∃ o t, target = some t.id ∧ o ∉ s.scheduled ∧ t ∈ s.queues o) ∨
        (∃ o t before after, target = some t.id ∧ o ∈ s.scheduled ∧
          s.queues o = before ++ t :: after ∧ k - 1 ≤ (before.length : Int)) →
      wait target k.toNat s = .error .timedOut (Session.step^[k.toNat] s)) := by
  refine ⟨fun r done positive => ?_, fun o t before after aimed member queue early => ?_, ?_⟩
  · obtain ⟨budget, rounds⟩ : ∃ budget, k.toNat = budget + 1 := ⟨k.toNat - 1, by omega⟩
    rw [rounds, wait_of_done done]
  · subst aimed
    rw [tracks.wait_queued member queue, if_pos (by omega)]
  · rintro (none | absent | ⟨o, t, rfl, unscheduled, queued⟩ | ⟨o, t, before, after, rfl, member,
      queue, late⟩)
    · rw [show k.toNat = 0 by omega]
      rfl
    · refine wait_of_never_done (fun j r done => ?_) _
      rw [iterate_outcome_absent absent j] at done
      cases done
    · refine wait_of_never_done (fun j r done => ?_) _
      rw [Option.bind_some, tracks.iterate_stranded unscheduled queued j] at done
      cases done
    · rw [tracks.wait_queued member queue, if_neg (by omega)]

/-- The first request of a fresh session, waited for with a budget of two rounds, is answered
after one round. -/
theorem first_request_answered_after_one_round :
    (Session.new.enqueue .add 2 3).Tracks [⟨.add, 2, 3⟩] ∧
      wait (some 0) (2 : Int).toNat (Session.new.enqueue .add 2 3) =
        .ok (Op.add.apply 2 3) (Session.step^[1] (Session.new.enqueue .add 2 3)) :=
  ⟨tracks_new.enqueue 2 3, (wait_rounds (tracks_new.enqueue 2 3) (some 0) 2).2.1 .add
    ⟨0, 2, 3⟩ [] [] rfl (by decide) rfl (by decide)⟩

end Session

end AgentLab.Calc
