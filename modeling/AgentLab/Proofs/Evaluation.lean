import AgentLab.Proofs.Tasks
import AgentLab.Proofs.Tokens
import Mathlib.Logic.Function.Iterate
/-!
Evaluation through the workers. Waiting for a task runs rounds until its outcome is in; a task at
place `pos` of a scheduled worker's queue is served in round `pos + 1`. On a session where every
worker is scheduled and found and every queue leaves room within the budget of one operation,
`Session.evaluate` answers exactly as the stack machine `evalPostfix`, completing every task it
requests; on a session with empty queues each operation takes exactly one round.
-/

namespace AgentLab.Calc

namespace Session

variable {s : Session} {log : List Ticket} {o : Op} {id : Nat} {t : Task}

/-! ## Rounds one after another -/

@[simp] theorem iterate_step_scheduled (k : Nat) :
    (Session.step^[k] s).scheduled = s.scheduled := by
  induction k generalizing s with
  | zero => rfl
  | succ k ih => rw [Function.iterate_succ_apply, ih, step_scheduled]

@[simp] theorem iterate_step_directory (k : Nat) :
    (Session.step^[k] s).directory = s.directory := by
  induction k generalizing s with
  | zero => rfl
  | succ k ih => rw [Function.iterate_succ_apply, ih, step_directory]

@[simp] theorem iterate_step_size (k : Nat) :
    (Session.step^[k] s).outcomes.size = s.outcomes.size := by
  induction k generalizing s with
  | zero => rfl
  | succ k ih => rw [Function.iterate_succ_apply, ih, step_size]

theorem Tracks.iterate (tracks : s.Tracks log) (k : Nat) : (Session.step^[k] s).Tracks log := by
  induction k generalizing s with
  | zero => exact tracks
  | succ k ih => rw [Function.iterate_succ_apply]; exact ih tracks.step

theorem Tracks.keepsFinal_iterate (tracks : s.Tracks log) (k : Nat) :
    KeepsFinal s (Session.step^[k] s) := by
  induction k generalizing s with
  | zero => exact KeepsFinal.refl s
  | succ k ih =>
    rw [Function.iterate_succ_apply]
    exact tracks.keepsFinal_step.trans (ih tracks.step)

theorem Tracks.iterate_queues (tracks : s.Tracks log) (member : o ∈ s.scheduled) (k : Nat) :
    (Session.step^[k] s).queues o = (s.queues o).drop k := by
  induction k generalizing s with
  | zero => rfl
  | succ k ih =>
    rw [Function.iterate_succ_apply, ih tracks.step (by simpa using member),
      step_queues tracks.schedule, if_pos member, List.drop_tail, Nat.add_comm]

theorem Tracks.iterate_waiting {before after : List Task} (tracks : s.Tracks log)
    (member : o ∈ s.scheduled) (queue : s.queues o = before ++ t :: after) {k : Nat}
    (early : k ≤ before.length) : (Session.step^[k] s).outcome? t.id = some .pending := by
  rw [(tracks.iterate k).pending]
  refine ⟨o, ?_⟩
  rw [queuedIds, tracks.iterate_queues member, queue, List.drop_append_of_le_length early]
  simp

theorem Tracks.iterate_served {before after : List Task} (tracks : s.Tracks log)
    (member : o ∈ s.scheduled) (queue : s.queues o = before ++ t :: after) :
    (Session.step^[before.length + 1] s).outcome? t.id = some (.done (o.apply t.a t.b)) := by
  have front : (Session.step^[before.length] s).queues o = t :: after := by
    rw [tracks.iterate_queues member, queue, List.drop_left]
  rw [Function.iterate_succ_apply']
  exact (tracks.iterate _).step_outcome_front (by simpa using member) front

/-! ## Waiting -/

theorem wait_first_final {j : Nat} {r : Except ArithFault Float}
    (waiting : ∀ k < j, ∀ r', (Session.step^[k] s).outcome? id ≠ some (.done r'))
    (final : (Session.step^[j] s).outcome? id = some (.done r)) (budget : Nat) :
    wait (some id) budget s =
      if j < budget then .ok r (Session.step^[j] s)
      else .error .timedOut (Session.step^[budget] s) := by
  induction budget generalizing s j with
  | zero => simp [wait]
  | succ budget ih =>
    cases j with
    | zero =>
      rw [Function.iterate_zero_apply] at final
      simp [wait, final]
    | succ j =>
      have notYet : ∀ r', s.outcome? id ≠ some (.done r') := waiting 0 (Nat.succ_pos j)
      have waiting' : ∀ k < j, ∀ r', (Session.step^[k] s.step).outcome? id ≠ some (.done r') := by
        intro k early r'
        rw [← Function.iterate_succ_apply]
        exact waiting (k + 1) (by omega) r'
      have final' : (Session.step^[j] s.step).outcome? id = some (.done r) := by
        rwa [← Function.iterate_succ_apply]
      have looked : wait (some id) (budget + 1) s = wait (some id) budget s.step := by
        cases found : s.outcome? id with
        | none => simp [wait, found]
        | some outcome =>
          cases outcome with
          | pending => simp [wait, found]
          | done r' => exact absurd found (notYet r')
      rw [looked, ih waiting' final', Function.iterate_succ_apply, Function.iterate_succ_apply]
      simp only [Nat.add_lt_add_iff_right]

theorem Tracks.wait_queued {before after : List Task} (tracks : s.Tracks log)
    (member : o ∈ s.scheduled) (queue : s.queues o = before ++ t :: after) (budget : Nat) :
    wait (some t.id) budget s =
      if before.length + 1 < budget then .ok (o.apply t.a t.b) (Session.step^[before.length + 1] s)
      else .error .timedOut (Session.step^[budget] s) := by
  refine wait_first_final ?_ (tracks.iterate_served member queue) budget
  intro k early r found
  rw [tracks.iterate_waiting member queue (by omega)] at found
  cases found

/-! ## Sessions ready for evaluation -/

theorem finds_iff : s.finds o = true ↔ s.directory ≠ .hidden ∧ o ∈ s.scheduled := by
  unfold finds
  cases shape : s.directory
  case query =>
    by_cases member : o ∈ s.scheduled <;> simp [Directory.lookup, queryWorker, member]
  all_goals simp [Directory.lookup]

/-- Every worker is scheduled and found, and each queue leaves room for one more task to be served
within the rounds that evaluation waits for an operation. -/
structure Ready (s : Session) : Prop where
  scheduled : ∀ o, o ∈ s.scheduled
  found : s.directory ≠ .hidden
  room : ∀ o, (s.queues o).length + 2 ≤ evalBudget

def Idle (s : Session) : Prop :=
  ∀ o, s.queues o = []

def Completes (s s' : Session) : Prop :=
  ∀ id, s.outcomes.size ≤ id → id < s'.outcomes.size → ∃ r, s'.outcome? id = some (.done r)

theorem Completes.trans {s' s'' : Session} (first : Completes s s') (second : Completes s' s'')
    (keeps : KeepsFinal s' s'') : Completes s s'' := by
  intro id low high
  by_cases early : id < s'.outcomes.size
  · obtain ⟨r, done⟩ := first id low early
    exact ⟨r, keeps id r done⟩
  · exact second id (Nat.le_of_not_lt early) high

/-! ## One operation -/

def serve (s : Session) (o : Op) (a b : Float) : Session :=
  Session.step^[(s.queues o).length + 1] (s.enqueue o a b)

variable {a b : Float}

theorem serve_of_idle (idle : s.Idle) : s.serve o a b = (s.enqueue o a b).step := by
  simp [serve, idle o]

@[simp] theorem serve_size : (s.serve o a b).outcomes.size = s.outcomes.size + 1 := by
  simp [serve]

theorem Tracks.serve (tracks : s.Tracks log) : (s.serve o a b).Tracks (log ++ [⟨o, a, b⟩]) :=
  (tracks.enqueue a b).iterate _

theorem Tracks.serve_queues {p : Op} (tracks : s.Tracks log) (member : p ∈ s.scheduled) :
    (s.serve o a b).queues p = ((s.enqueue o a b).queues p).drop ((s.queues o).length + 1) :=
  (tracks.enqueue a b).iterate_queues (by simpa using member) _

theorem Tracks.serve_outcome (tracks : s.Tracks log) (member : o ∈ s.scheduled) :
    (s.serve o a b).outcome? s.outcomes.size = some (.done (o.apply a b)) := by
  have queue : (s.enqueue o a b).queues o = s.queues o ++ [⟨s.outcomes.size, a, b⟩] := by
    rw [enqueue_queues, if_pos rfl]
  exact (tracks.enqueue a b).iterate_served (by simpa using member) queue

theorem Tracks.keepsFinal_serve (tracks : s.Tracks log) : KeepsFinal s (s.serve o a b) :=
  (keepsFinal_enqueue a b).trans ((tracks.enqueue a b).keepsFinal_iterate _)

theorem Tracks.completes_serve (tracks : s.Tracks log) (member : o ∈ s.scheduled) :
    Completes s (s.serve o a b) := by
  intro id low high
  have fresh : id = s.outcomes.size := by
    rw [serve_size] at high
    omega
  subst fresh
  exact ⟨_, tracks.serve_outcome member⟩

theorem Ready.serve (ready : s.Ready) (tracks : s.Tracks log) : (s.serve o a b).Ready where
  scheduled := by
    intro p
    simpa [Session.serve] using ready.scheduled p
  found := by simpa [Session.serve] using ready.found
  room := by
    intro p
    have room := ready.room p
    rw [tracks.serve_queues (ready.scheduled p), List.length_drop, enqueue_queues]
    split
    · rename_i same
      subst same
      simp
      omega
    · omega

theorem Idle.serve (idle : s.Idle) (tracks : s.Tracks log) (ready : s.Ready) :
    (s.serve o a b).Idle := by
  intro p
  rw [tracks.serve_queues (ready.scheduled p), enqueue_queues, idle o]
  split
  · simp
  · simp [idle p]

/-! ## Evaluation -/

theorem Tracks.evaluate_op (tracks : s.Tracks log) (ready : s.Ready) (below : List Float)
    (rest : List String) :
    evaluate (b :: a :: below) (o.symbol :: rest) s =
      match o.apply a b with
      | .ok v => evaluate (v :: below) rest (s.serve o a b)
      | .error f => .error (.eval (.operation f)) (s.serve o a b) := by
  have found : s.finds o = true := finds_iff.mpr ⟨ready.found, ready.scheduled o⟩
  have queue : (s.enqueue o a b).queues o = s.queues o ++ [⟨s.outcomes.size, a, b⟩] := by
    rw [enqueue_queues, if_pos rfl]
  have waited :=
    (tracks.enqueue a b).wait_queued (by simpa using ready.scheduled o) queue evalBudget
  rw [if_pos (by have := ready.room o; omega)] at waited
  simp only [evaluate, Token.ofText?_symbol, request_of_finds found, waited]
  cases o.apply a b <;> rfl

/-- A request from a worker with `evalBudget - 1` tasks or more in front of it is not served
within the budget: evaluation times out after `evalBudget` rounds. -/
theorem Tracks.evaluate_timeout (tracks : s.Tracks log) (found : s.finds o = true)
    (full : evalBudget ≤ (s.queues o).length + 1) (below : List Float) (rest : List String) :
    evaluate (b :: a :: below) (o.symbol :: rest) s =
      .error .timedOut (Session.step^[evalBudget] (s.enqueue o a b)) := by
  have queue : (s.enqueue o a b).queues o = s.queues o ++ [⟨s.outcomes.size, a, b⟩] := by
    rw [enqueue_queues, if_pos rfl]
  have waited := (tracks.enqueue a b).wait_queued (by simpa using (finds_iff.mp found).2) queue
    evalBudget
  rw [if_neg (by omega)] at waited
  simp only [evaluate, Token.ofText?_symbol, request_of_finds found, waited]

def ending {α : Type} (x : Except SessionFault α) (s : Session) :
    EStateM.Result SessionFault Session α :=
  match x with
  | .ok a => .ok a s
  | .error e => .error e s

def AnswersAs (s : Session) (x : Except EvalFault Float)
    (r : EStateM.Result SessionFault Session Float) : Prop :=
  ∃ log' s', r = ending (x.mapError .eval) s' ∧ s'.Tracks log' ∧ s'.Ready ∧ KeepsFinal s s' ∧
    Completes s s' ∧ (s.Idle → s'.Idle)

theorem Tracks.answersAs_halt (tracks : s.Tracks log) (ready : s.Ready) (f : EvalFault) :
    AnswersAs s (.error f) (.error (.eval f) s) :=
  ⟨log, s, rfl, tracks, ready, .refl s, fun _ low high => absurd high (Nat.not_lt_of_le low), id⟩

/-- On a ready session evaluation through the workers answers as the stack machine; the induction
runs over the postfix tokens, with the state moved on by each served operation. -/
theorem Tracks.evaluate_answersAs (tracks : s.Tracks log) (ready : s.Ready) (stack : List Float)
    (rpn : List String) : AnswersAs s (evalPostfix stack rpn) (evaluate stack rpn s) := by
  induction rpn generalizing stack s log with
  | nil =>
    refine ⟨log, s, ?_, tracks, ready, .refl s,
      fun _ low high => absurd high (Nat.not_lt_of_le low), id⟩
    rcases stack with _ | ⟨v, _ | ⟨w, below⟩⟩ <;> rfl
  | cons text rest ih =>
    cases token : Token.ofText? text with
    | none =>
      simp only [evaluate, evalPostfix, token]
      exact tracks.answersAs_halt ready _
    | some tok =>
      cases tok with
      | num t =>
        simp only [evaluate, evalPostfix, token]
        exact ih tracks ready _
      | op o =>
        have symbol : text = o.symbol := (Token.text_of_ofText? token).1.symm
        subst symbol
        rcases stack with _ | ⟨b, _ | ⟨a, below⟩⟩
        · simp only [evaluate, evalPostfix, Token.ofText?_symbol]
          exact tracks.answersAs_halt ready _
        · simp only [evaluate, evalPostfix, Token.ofText?_symbol]
          exact tracks.answersAs_halt ready _
        · rw [tracks.evaluate_op ready below rest]
          simp only [evalPostfix, Token.ofText?_symbol]
          cases o.apply a b with
          | ok v =>
            obtain ⟨log', s', run, tracks', ready', keeps, completes, idle⟩ :=
              ih tracks.serve (ready.serve tracks) (v :: below)
            exact ⟨log', s', run, tracks', ready', tracks.keepsFinal_serve.trans keeps,
              (tracks.completes_serve (ready.scheduled o)).trans completes keeps,
              fun idleBefore => idle (idleBefore.serve tracks ready)⟩
          | error f =>
            exact ⟨_, _, rfl, tracks.serve, ready.serve tracks, tracks.keepsFinal_serve,
              tracks.completes_serve (ready.scheduled o), fun idle => idle.serve tracks ready⟩
      | openParen =>
        simp only [evaluate, evalPostfix, token]
        exact tracks.answersAs_halt ready _
      | closeParen =>
        simp only [evaluate, evalPostfix, token]
        exact tracks.answersAs_halt ready _

theorem ready_new : Session.new.Ready where
  scheduled := by
    intro o
    cases o <;> decide
  found := by decide
  room := by
    intro o
    simp [Session.new, evalBudget]

theorem idle_new : Session.new.Idle := fun _ => rfl

/-- Evaluation through the workers refines the stack machine `evalPostfix`. On a tracked session
with every worker scheduled and found and room in every queue, it answers exactly as the stack
machine, the same double or the same failure, completes every task it requests and leaves such a
session again. On a session with empty queues each operation is one request and exactly one
round, after which the queues are empty again, so a session reused after any number of
evaluations answers as a fresh one. The room is tight: an operation whose worker already has
`evalBudget - 1` tasks queued times out after `evalBudget` rounds. -/
theorem evaluate_refines_stack_machine (tracks : s.Tracks log) :
    (s.Ready → ∀ (stack : List Float) (rpn : List String), ∃ log' s',
        evaluate stack rpn s = ending ((evalPostfix stack rpn).mapError .eval) s' ∧
        Completes s s' ∧ s'.Tracks log' ∧ s'.Ready ∧ (s.Idle → s'.Idle)) ∧
    (s.Ready → s.Idle → ∀ (o : Op) (a b : Float) (below : List Float) (rest : List String),
        evaluate (b :: a :: below) (o.symbol :: rest) s =
          (match o.apply a b with
          | .ok v => evaluate (v :: below) rest (s.enqueue o a b).step
          | .error f => .error (.eval (.operation f)) (s.enqueue o a b).step) ∧
        (s.enqueue o a b).step.Idle) ∧
    (∀ (o : Op) (a b : Float) (below : List Float) (rest : List String), s.finds o = true →
        evalBudget ≤ (s.queues o).length + 1 →
        evaluate (b :: a :: below) (o.symbol :: rest) s =
          .error .timedOut (Session.step^[evalBudget] (s.enqueue o a b))) := by
  refine ⟨?_, ?_, ?_⟩
  · intro ready stack rpn
    obtain ⟨log', s', run, tracks', ready', -, completes, idle⟩ :=
      tracks.evaluate_answersAs ready stack rpn
    exact ⟨log', s', run, completes, tracks', ready', idle⟩
  · intro ready idle o a b below rest
    have emptied : (s.serve o a b).Idle := idle.serve tracks ready
    rw [serve_of_idle idle] at emptied
    rw [tracks.evaluate_op ready below rest, serve_of_idle idle]
    exact ⟨rfl, emptied⟩
  · intro o a b below rest found full
    exact tracks.evaluate_timeout found full below rest

theorem fresh_session_answers_as_stack_machine :
    Session.new.Tracks [] ∧ ∃ log' s',
      evaluate [] ["2", "3", "+"] Session.new =
        ending ((evalPostfix [] ["2", "3", "+"]).mapError .eval) s' ∧
      Completes Session.new s' ∧ s'.Tracks log' ∧ s'.Ready ∧ (Session.new.Idle → s'.Idle) :=
  ⟨tracks_new, (evaluate_refines_stack_machine tracks_new).1 ready_new [] ["2", "3", "+"]⟩

end Session

end AgentLab.Calc
