import AgentLab.Proofs.Evaluation
import AgentLab.Calc.Client
import Mathlib.Logic.Relation
/-!
Runs of a calculator session. On the session, every command a client sends is a sequence of four
primitive moves: a request that finds its worker, a round, a worker taken off the schedule, and a
new directory. Each move keeps the task invariant and settles outcomes only as a round of the
workers does, so every run of commands from a fresh client keeps both.
-/

namespace AgentLab.Calc

namespace Session

/-- The primitive moves of a session, beside the log of the requests made so far. -/
inductive Move : List Ticket × Session → List Ticket × Session → Prop
  | request {log : List Ticket} {s s' : Session} {o : Op} {a b : Float} {id : Nat} :
      Session.request o a b s = .ok id s' → Move (log, s) (log ++ [⟨o, a, b⟩], s')
  | round {log : List Ticket} {s : Session} : Move (log, s) (log, s.step)
  | retire {log : List Ticket} {s s' : Session} {o : Op} :
      Session.retire o s = .ok () s' → Move (log, s) (log, s')
  | redirect {log : List Ticket} {s : Session} (d : Directory) :
      Move (log, s) (log, { s with directory := d })

/-- What a move may do to outcomes: it drops none and leaves every final one as it is, and it
makes a pending one final only in a round, for the task at the front of a scheduled worker's queue
and with what that worker computes on the task's operands. -/
structure Settles (s s' : Session) : Prop where
  kept : s.outcomes.size ≤ s'.outcomes.size
  final : KeepsFinal s s'
  served : ∀ id r, s.outcome? id = some .pending → s'.outcome? id = some (.done r) →
    s' = s.step ∧ ∃ o ∈ s.scheduled, ∃ t rest, s.queues o = t :: rest ∧ t.id = id ∧
      r = o.apply t.a t.b

variable {s s' : Session} {log : List Ticket} {o : Op}

theorem settles_of_outcomes (same : s'.outcomes = s.outcomes) : Settles s s' where
  kept := Nat.le_of_eq (congrArg Array.size same.symm)
  final := by
    intro id r done
    simpa [outcome?, same] using done
  served := by
    intro id r waiting done
    simp only [outcome?, same] at done
    rw [outcome?] at waiting
    rw [waiting] at done
    cases done

theorem settles_enqueue (a b : Float) : Settles s (s.enqueue o a b) where
  kept := by simp
  final := keepsFinal_enqueue a b
  served := by
    intro id r waiting done
    rw [enqueue_outcome] at done
    split at done
    · cases done
    · rw [waiting] at done
      cases done

theorem Tracks.settles_step (tracks : s.Tracks log) : Settles s s.step where
  kept := by simp
  final := tracks.keepsFinal_step
  served := by
    intro id r waiting done
    refine ⟨rfl, ?_⟩
    by_cases served : ∃ q ∈ s.scheduled, (s.queuedIds q).head? = some id
    · obtain ⟨q, member, front⟩ := served
      obtain ⟨t, rest, queue, rfl⟩ := queue_of_head? front
      rw [tracks.step_outcome_front member queue, Option.some.injEq, Outcome.done.injEq] at done
      exact ⟨q, member, t, rest, queue, rfl, done.symm⟩
    · have other : ∀ q ∈ s.scheduled, (s.queuedIds q).head? ≠ some id :=
        fun q member front => served ⟨q, member, front⟩
      rw [step_outcome_of_ne tracks.schedule other, waiting] at done
      cases done

theorem Tracks.move {q : List Ticket × Session} (tracks : s.Tracks log) (move : Move (log, s) q) :
    q.2.Tracks q.1 ∧ Settles s q.2 := by
  cases move with
  | request asked =>
    obtain ⟨-, -, rfl⟩ := request_eq_ok asked
    exact ⟨tracks.enqueue _ _, settles_enqueue _ _⟩
  | round => exact ⟨tracks.step, tracks.settles_step⟩
  | retire left =>
    obtain ⟨-, rfl⟩ := retire_eq_ok left
    exact ⟨tracks.unschedule, settles_of_outcomes rfl⟩
  | redirect d => exact ⟨tracks.redirect d, settles_of_outcomes rfl⟩

theorem Move.log_length {p q : List Ticket × Session} (move : Move p q) :
    p.1.length ≤ q.1.length := by
  cases move <;> simp

theorem moves_log_length {p q : List Ticket × Session} (moves : Relation.ReflTransGen Move p q) :
    p.1.length ≤ q.1.length := by
  induction moves with
  | refl => exact Nat.le_refl _
  | tail _ move earlier => exact Nat.le_trans earlier move.log_length

theorem settled_moves {p q : List Ticket × Session} (tracks : p.2.Tracks p.1)
    (moves : Relation.ReflTransGen Move p q) :
    Relation.ReflTransGen (fun p q => Move p q ∧ Settles p.2 q.2) p q ∧ q.2.Tracks q.1 := by
  induction moves with
  | refl => exact ⟨.refl, tracks⟩
  | tail _ move earlier =>
    obtain ⟨path, reached⟩ := earlier
    obtain ⟨next, settles⟩ := reached.move move
    exact ⟨path.tail ⟨move, settles⟩, next⟩

theorem rounds_moves (k : Nat) :
    Relation.ReflTransGen Move (log, s) (log, Session.step^[k] s) := by
  induction k generalizing s with
  | zero => exact .refl
  | succ k ih =>
    rw [Function.iterate_succ_apply]
    exact .head Move.round ih

/-! ## Session computations as moves -/

def after {α : Type} : EStateM.Result SessionFault Session α → Session
  | .ok _ s => s
  | .error _ s => s

def MovesBy {α : Type} (m : SessionM α) : Prop :=
  ∀ log s, ∃ log', Relation.ReflTransGen Move (log, s) (log', after (m s))

theorem wait_after (target : Option Nat) (budget : Nat) (s : Session) :
    ∃ k, after (wait target budget s) = Session.step^[k] s := by
  induction budget generalizing s with
  | zero => exact ⟨0, rfl⟩
  | succ budget ih =>
    simp only [wait]
    split
    · exact ⟨0, rfl⟩
    · obtain ⟨k, later⟩ := ih s.step
      exact ⟨k + 1, by rw [later, Function.iterate_succ_apply]⟩

theorem wait_movesBy (target : Option Nat) (budget : Nat) : MovesBy (wait target budget) := by
  intro log s
  obtain ⟨k, rounds⟩ := wait_after target budget s
  exact ⟨log, rounds ▸ rounds_moves k⟩

theorem evaluate_movesBy (stack : List Float) (rpn : List String) :
    MovesBy (evaluate stack rpn) := by
  intro log s
  induction rpn generalizing stack s log with
  | nil =>
    refine ⟨log, ?_⟩
    rcases stack with _ | ⟨v, _ | ⟨w, below⟩⟩ <;> exact .refl
  | cons text rest ih =>
    cases token : Token.ofText? text with
    | none =>
      simp only [evaluate, token]
      exact ⟨log, .refl⟩
    | some tok =>
      cases tok with
      | num t =>
        simp only [evaluate, token]
        exact ih _ log s
      | op o =>
        rcases stack with _ | ⟨b, _ | ⟨a, below⟩⟩
        · simp only [evaluate, token]
          exact ⟨log, .refl⟩
        · simp only [evaluate, token]
          exact ⟨log, .refl⟩
        · simp only [evaluate, token]
          cases asked : request o a b s with
          | error e s1 =>
            rw [request_eq_error asked]
            exact ⟨log, .refl⟩
          | ok id s1 =>
            have first : Move (log, s) (log ++ [⟨o, a, b⟩], s1) := Move.request asked
            obtain ⟨k, rounds⟩ := wait_after (some id) evalBudget s1
            simp only
            cases waited : wait (some id) evalBudget s1 with
            | ok answer s2 =>
              have rounded : s2 = Session.step^[k] s1 := by
                rw [waited] at rounds
                exact rounds
              have reached : Relation.ReflTransGen Move (log, s) (log ++ [⟨o, a, b⟩], s2) :=
                .head first (rounded ▸ rounds_moves k)
              cases answer with
              | ok v =>
                obtain ⟨log', later⟩ := ih (v :: below) (log ++ [⟨o, a, b⟩]) s2
                exact ⟨log', reached.trans later⟩
              | error f => exact ⟨_, reached⟩
            | error e s2 =>
              have rounded : s2 = Session.step^[k] s1 := by
                rw [waited] at rounds
                exact rounds
              exact ⟨_, .head first (rounded ▸ rounds_moves k)⟩
      | openParen =>
        simp only [evaluate, token]
        exact ⟨log, .refl⟩
      | closeParen =>
        simp only [evaluate, token]
        exact ⟨log, .refl⟩

theorem retire_movesBy : MovesBy (retire o) := by
  intro log s
  cases left : retire o s with
  | ok u s' =>
    exact ⟨log, .single (Move.retire left)⟩
  | error e s' =>
    rw [retire_eq_error left]
    exact ⟨log, .refl⟩

theorem requestSymbol_ok {symbol : String} {a b : Float} {id : Nat}
    (asked : requestSymbol symbol a b s = .ok id s') :
    ∃ o, request o a b s = .ok id s' ∧ Op.ofSymbol? symbol = some o := by
  unfold requestSymbol at asked
  split at asked
  · rename_i o found
    exact ⟨o, asked, found⟩
  · cases asked

theorem requestSymbol_movesBy (symbol : String) (a b : Float) :
    MovesBy (requestSymbol symbol a b) := by
  intro log s
  cases asked : requestSymbol symbol a b s with
  | ok id s' =>
    obtain ⟨o, request, -⟩ := requestSymbol_ok asked
    exact ⟨_, .single (Move.request request)⟩
  | error e s' =>
    have stays : s' = s := by
      unfold requestSymbol at asked
      split at asked
      · exact request_eq_error asked
      · cases asked
        rfl
    subst stays
    exact ⟨log, .refl⟩

end Session

namespace Client

variable {c c' : Client} {log : List Ticket}

theorem attempt_eq {α : Type} (m : SessionM α) :
    (c.attempt m).2 = { c with session := Session.after (m c.session) } := by
  unfold attempt
  split <;> rename_i result <;> simp [result, Session.after]

theorem attempt_ok {α : Type} {m : SessionM α} {a : α}
    (answered : c.attempt m = (.ok a, c')) :
    m c.session = .ok a c'.session ∧ c'.handles = c.handles := by
  unfold attempt at answered
  split at answered
  · rename_i result
    cases answered
    exact ⟨result, rfl⟩
  · cases answered

theorem attempt_moves {α : Type} {m : SessionM α} (moving : Session.MovesBy m)
    (handles : ∀ h ∈ c.handles, h < log.length) :
    ∃ log', Relation.ReflTransGen Session.Move (log, c.session) (log', (c.attempt m).2.session) ∧
      ∀ h ∈ (c.attempt m).2.handles, h < log'.length := by
  obtain ⟨log', moves⟩ := moving log c.session
  rw [attempt_eq]
  exact ⟨log', moves, fun h member =>
    Nat.lt_of_lt_of_le (handles h member) (Session.moves_log_length moves)⟩

private theorem unchanged_moves (handles : ∀ h ∈ c.handles, h < log.length) :
    ∃ log', Relation.ReflTransGen Session.Move (log, c.session) (log', c.session) ∧
      ∀ h ∈ c.handles, h < log'.length :=
  ⟨log, .refl, handles⟩

theorem evalExpr_moves {expr : Arg} {r : Reply} (handles : ∀ h ∈ c.handles, h < log.length)
    (ran : c.evalExpr expr = (r, c')) :
    ∃ log', Relation.ReflTransGen Session.Move (log, c.session) (log', c'.session) ∧
      ∀ h ∈ c'.handles, h < log'.length := by
  unfold evalExpr at ran
  split at ran
  · cases ran
    exact unchanged_moves handles
  · split at ran
    · cases ran
      exact unchanged_moves handles
    · rename_i ps _
      obtain ⟨log', moves, named⟩ := attempt_moves (Session.evaluate_movesBy [] ps) handles
      split at ran <;> rename_i attempted <;> rw [attempted] at moves named <;> cases ran <;>
        exact ⟨log', moves, named⟩

theorem request_moves {symbol : String} {a b : Float} {r : Reply}
    (tracks : c.session.Tracks log) (handles : ∀ h ∈ c.handles, h < log.length)
    (ran : c.run (.request symbol a b) = some (r, c')) :
    ∃ log', Relation.ReflTransGen Session.Move (log, c.session) (log', c'.session) ∧
      ∀ h ∈ c'.handles, h < log'.length := by
  simp only [run] at ran
  split at ran
  · rename_i id c2 attempted
    obtain ⟨asked, same⟩ := attempt_ok attempted
    obtain ⟨o, request, -⟩ := Session.requestSymbol_ok asked
    obtain ⟨-, fresh, -⟩ := Session.request_eq_ok request
    cases ran
    refine ⟨log ++ [⟨o, a, b⟩], .single (Session.Move.request request), ?_⟩
    intro h member
    rw [Array.mem_push] at member
    rw [List.length_append, List.length_singleton]
    rcases member with old | new
    · exact Nat.lt_succ_of_lt (handles h (same ▸ old))
    · rw [new, fresh, tracks.size]
      exact Nat.lt_succ_self _
  · rename_i c2 attempted
    obtain ⟨log', moves, named⟩ := attempt_moves (Session.requestSymbol_movesBy symbol a b) handles
    rw [attempted] at moves named
    cases ran
    exact ⟨log', moves, named⟩

theorem run_moves {cmd : Command} {r : Reply} (tracks : c.session.Tracks log)
    (handles : ∀ h ∈ c.handles, h < log.length) (ran : c.run cmd = some (r, c')) :
    ∃ log', Relation.ReflTransGen Session.Move (log, c.session) (log', c'.session) ∧
      ∀ h ∈ c'.handles, h < log'.length := by
  cases cmd with
  | tokenize expr =>
    simp only [run] at ran
    split at ran <;> cases ran <;> exact unchanged_moves handles
  | toPostfix texts =>
    simp only [run] at ran
    split at ran <;> cases ran <;> exact unchanged_moves handles
  | evaluate texts =>
    simp only [run] at ran
    obtain ⟨log', moves, named⟩ := attempt_moves (Session.evaluate_movesBy [] texts) handles
    split at ran <;> rename_i attempted <;> rw [attempted] at moves named <;> cases ran <;>
      exact ⟨log', moves, named⟩
  | eval expr =>
    simp only [run, Option.some.injEq] at ran
    exact evalExpr_moves handles ran
  | request symbol a b => exact request_moves tracks handles ran
  | step =>
    simp only [run, Option.some.injEq, Prod.mk.injEq] at ran
    obtain ⟨-, rfl⟩ := ran
    exact ⟨log, .single Session.Move.round, handles⟩
  | result handle =>
    simp only [run] at ran
    cases found : c.handles[handle]? with
    | none => simp [found] at ran
    | some id =>
      cases stored : c.session.outcome? id with
      | none => simp [found, stored] at ran
      | some o =>
        simp [found, stored] at ran
        obtain ⟨-, rfl⟩ := ran
        exact unchanged_moves handles
  | directory d =>
    simp only [run, Option.some.injEq, Prod.mk.injEq] at ran
    obtain ⟨-, rfl⟩ := ran
    exact ⟨log, .single (Session.Move.redirect d), handles⟩
  | retire symbol =>
    simp only [run] at ran
    split at ran
    · rename_i o _
      obtain ⟨log', moves, named⟩ := attempt_moves (Session.retire_movesBy (o := o)) handles
      split at ran <;> rename_i attempted <;> rw [attempted] at moves named <;> cases ran <;>
        exact ⟨log', moves, named⟩
    · cases ran
      exact unchanged_moves handles
  | wait handle budget =>
    -- whichever task it waits for, the session only runs rounds
    have waited : ∃ target, (c.attempt (Session.wait target budget.toNat)).2 = c' := by
      cases handle with
      | none =>
        simp only [run, Option.bind_eq_bind, Option.bind_some] at ran
        refine ⟨none, ?_⟩
        split at ran <;> rename_i attempted <;> cases ran <;> rw [attempted]
      | some h =>
        simp only [run, Option.bind_eq_bind, Option.bind_eq_some_iff] at ran
        obtain ⟨target, -, ran⟩ := ran
        refine ⟨target, ?_⟩
        split at ran <;> rename_i attempted <;> cases ran <;> rw [attempted]
    obtain ⟨target, rfl⟩ := waited
    exact attempt_moves (Session.wait_movesBy target budget.toNat) handles
  | queues =>
    simp only [run, Option.some.injEq, Prod.mk.injEq] at ran
    obtain ⟨-, rfl⟩ := ran
    exact unchanged_moves handles

/-- `c` runs the commands one after another and ends as `c'`, every command answering. -/
inductive Runs : Client → List Command → Client → Prop
  | nil (c : Client) : Runs c [] c
  | cons {c c' c'' : Client} {cmd : Command} {cmds : List Command} {r : Reply} :
      c.run cmd = some (r, c') → Runs c' cmds c'' → Runs c (cmd :: cmds) c''

theorem runs_settle {cmds : List Command}
    (reached : ∃ log, Relation.ReflTransGen (fun p q => Session.Move p q ∧ Session.Settles p.2 q.2)
        ([], Session.new) (log, c.session) ∧ c.session.Tracks log ∧ ∀ h ∈ c.handles, h < log.length)
    (run : c.Runs cmds c') :
    ∃ log, Relation.ReflTransGen (fun p q => Session.Move p q ∧ Session.Settles p.2 q.2)
        ([], Session.new) (log, c'.session) ∧
      c'.session.Tracks log ∧ ∀ h ∈ c'.handles, h < log.length := by
  induction run with
  | nil => exact reached
  | cons ran _ ih =>
    obtain ⟨log, path, tracks, handles⟩ := reached
    obtain ⟨log', moves, named⟩ := run_moves tracks handles ran
    obtain ⟨settled, tracks'⟩ := Session.settled_moves tracks moves
    exact ih ⟨log', path.trans settled, tracks', named⟩

/-- The task invariant over every run. Every run of commands from a fresh client, whichever the
commands and whether they answer or fail, is on the session a sequence of primitive moves, each
keeping every final outcome and making a pending one final only in a round, for the task at the
front of a scheduled worker's queue and with that worker's result on the task's operands. The
session reached tracks the log of every request made, directly or by evaluation, and each handle
the client holds names one of them. -/
theorem runs_track_tasks {cmds : List Command} (run : Client.new.Runs cmds c) :
    ∃ log, Relation.ReflTransGen (fun p q => Session.Move p q ∧ Session.Settles p.2 q.2)
        ([], Session.new) (log, c.session) ∧
      c.session.Tracks log ∧ ∀ h ∈ c.handles, h < log.length :=
  runs_settle ⟨[], .refl, Session.tracks_new, by simp [Client.new]⟩ run

theorem request_round_tracks_tasks :
    Client.new.Runs [.request "+" 2 3, .step] ⟨(Session.new.enqueue .add 2 3).step, #[0]⟩ ∧
      ∃ log, Relation.ReflTransGen (fun p q => Session.Move p q ∧ Session.Settles p.2 q.2)
          ([], Session.new) (log, (Session.new.enqueue .add 2 3).step) ∧
        (Session.new.enqueue .add 2 3).step.Tracks log ∧ ∀ h ∈ #[0], h < log.length :=
  have run : Client.new.Runs [.request "+" 2 3, .step]
      ⟨(Session.new.enqueue .add 2 3).step, #[0]⟩ := .cons rfl (.cons rfl (.nil _))
  ⟨run, runs_track_tasks run⟩

end Client

end AgentLab.Calc
