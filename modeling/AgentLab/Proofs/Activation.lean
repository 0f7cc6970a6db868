import AgentLab.Proofs.Runs
/-!
The order in which a round activates the workers. A round lets each scheduled worker take the task
at the front of its queue and store its outcome. On a tracked session the fronts of two queues are
two different tasks, so two workers touch different queues and different outcomes, and a round
depends only on which workers it activates, not on their order.

Main statement: on every session a client can reach, any two orders of the scheduled workers give
the same round, and any run of rounds, each in an order of its own, reaches the states the
session's own rounds reach. So waiting and evaluating under a scheduler that draws a new order
for every round (`waitIn`, `evaluateIn`) answer as waiting and evaluating with the fixed order.
-/

namespace AgentLab.Calc

namespace Session

variable {s : Session} {log : List Ticket} {order order' : List Op}

theorem ext_outcome? {s' : Session} (queues : s.queues = s'.queues)
    (scheduled : s.scheduled = s'.scheduled) (directory : s.directory = s'.directory)
    (outcomes : ∀ id, s.outcome? id = s'.outcome? id) : s = s' := by
  cases s
  cases s'
  congr
  exact Array.ext_getElem? outcomes

theorem Tracks.front_unique {id : Nat} {o p : Op} (tracks : s.Tracks log)
    (first : (s.queuedIds o).head? = some id) (second : (s.queuedIds p).head? = some id) :
    p = o :=
  tracks.same_queue (List.mem_of_mem_head? second) (List.mem_of_mem_head? first)

/-- Two rounds over duplicate-free orders of the same workers store the same outcome at every id:
the task at the front of an activated queue gets its worker's result in both, and no other
outcome changes. -/
theorem Tracks.stepIn_outcome_congr (tracks : s.Tracks log) (nodup : order.Nodup)
    (nodup' : order'.Nodup) (same : ∀ q, q ∈ order ↔ q ∈ order') (id : Nat) :
    (s.stepIn order).outcome? id = (s.stepIn order').outcome? id := by
  by_cases served : ∃ q ∈ order, (s.queuedIds q).head? = some id
  · obtain ⟨q, member, front⟩ := served
    obtain ⟨t, rest, queue, rfl⟩ := queue_of_head? front
    have queued : t ∈ s.queues q := by simp [queue]
    have bound : t.id < s.outcomes.size := tracks.id_lt queued
    -- no other activated worker has the same task in front
    have alone : ∀ ord : List Op, ∀ r ∈ ord, r ≠ q → (s.queuedIds r).head? ≠ some t.id :=
      fun _ r _ differs other => differs (tracks.front_unique front other)
    rw [stepIn_outcome_front nodup member queue bound (alone order),
      stepIn_outcome_front nodup' ((same q).mp member) queue bound (alone order')]
  · have idle : ∀ q ∈ order, (s.queuedIds q).head? ≠ some id :=
      fun q member front => served ⟨q, member, front⟩
    have idle' : ∀ q ∈ order', (s.queuedIds q).head? ≠ some id :=
      fun q member front => served ⟨q, (same q).mpr member, front⟩
    rw [stepIn_outcome_of_ne nodup idle, stepIn_outcome_of_ne nodup' idle']

theorem Tracks.stepIn_congr (tracks : s.Tracks log) (nodup : order.Nodup)
    (nodup' : order'.Nodup) (same : ∀ q, q ∈ order ↔ q ∈ order') :
    s.stepIn order = s.stepIn order' := by
  apply ext_outcome?
  · funext p
    simp only [stepIn_queues nodup, stepIn_queues nodup', same]
  · rw [stepIn_scheduled, stepIn_scheduled]
  · rw [stepIn_directory, stepIn_directory]
  · exact tracks.stepIn_outcome_congr nodup nodup' same

theorem Tracks.stepIn_perm (tracks : s.Tracks log) (perm : order.Perm s.scheduled) :
    s.stepIn order = s.step :=
  tracks.stepIn_congr (perm.nodup_iff.mpr tracks.schedule) tracks.schedule fun _ => perm.mem_iff

/-- Rounds one after another, each over its own order of the scheduled workers, reach the states
of as many of the session's own rounds. The induction runs over the rounds; a round keeps the
task invariant and the schedule, so each later order is still one of the scheduled workers. -/
theorem Tracks.rounds_perm (tracks : s.Tracks log) (orders : List (List Op))
    (perms : ∀ order ∈ orders, order.Perm s.scheduled) :
    orders.foldl stepIn s = Session.step^[orders.length] s := by
  induction orders generalizing s with
  | nil => rfl
  | cons order later ih =>
    have first : s.stepIn order = s.step := tracks.stepIn_perm (perms order List.mem_cons_self)
    have rest : ∀ order ∈ later, order.Perm s.step.scheduled := by
      intro order' member
      rw [step_scheduled]
      exact perms order' (List.mem_cons_of_mem order member)
    rw [List.foldl_cons, first, ih tracks.step rest, List.length_cons,
      Function.iterate_succ_apply]

/-! ## Waiting and evaluating under a random activation order -/

/-- A computation on a session beside the number of rounds run so far: round `k` of the whole run
activates the workers in the `k`-th order a scheduler draws. -/
abbrev ShuffledM := EStateM SessionFault (Session × Nat)

def waitIn (orders : Nat → List Op) (target : Option Nat) : Nat → ShuffledM (Except ArithFault Float)
  | 0 => fun st => .error .timedOut st
  | budget + 1 => fun st =>
    match target.bind st.1.outcome? with
    | some (.done r) => .ok r st
    | _ => waitIn orders target budget (st.1.stepIn (orders st.2), st.2 + 1)

def evaluateIn (orders : Nat → List Op) (stack : List Float) : List String → ShuffledM Float
  | [] => fun st =>
    match stack with
    | [v] => .ok v st
    | _ => .error (.eval .leftover) st
  | text :: rest => fun st =>
    match Token.ofText? text with
    | some (.num t) => evaluateIn orders (numeralValue t :: stack) rest st
    | some (.op o) =>
      match stack with
      | b :: a :: below =>
        match request o a b st.1 with
        | .ok id s =>
          match waitIn orders (some id) evalBudget (s, st.2) with
          | .ok (.ok v) st' => evaluateIn orders (v :: below) rest st'
          | .ok (.error f) st' => .error (.eval (.operation f)) st'
          | .error e st' => .error e st'
        | .error e s => .error e (s, st.2)
      | _ => .error (.eval .tooFew) st
    | _ => .error (.eval (.unknown text)) st

def withCount {α : Type} (j : Nat) : EStateM.Result SessionFault Session α →
    EStateM.Result SessionFault (Session × Nat) α
  | .ok a s => .ok a (s, j)
  | .error e s => .error e (s, j)

variable {orders : Nat → List Op}

theorem perms_of_scheduled_eq {s' : Session} (same : s'.scheduled = s.scheduled)
    (perms : ∀ k, (orders k).Perm s.scheduled) (k : Nat) : (orders k).Perm s'.scheduled :=
  same ▸ perms k

/-- On a tracked session, waiting with every round in an order of the scheduled workers answers
and leaves the session as waiting with the session's own rounds. The induction runs over the
budget; a round keeps the invariant and the schedule. -/
theorem Tracks.waitIn_eq (tracks : s.Tracks log) (perms : ∀ k, (orders k).Perm s.scheduled)
    (target : Option Nat) (budget k : Nat) :
    ∃ j, waitIn orders target budget (s, k) = withCount j (wait target budget s) := by
  induction budget generalizing s k with
  | zero => exact ⟨k, rfl⟩
  | succ budget ih =>
    have later := perms_of_scheduled_eq step_scheduled perms
    have round : s.stepIn (orders k) = s.step := tracks.stepIn_perm (perms k)
    obtain ⟨j, rest⟩ := ih tracks.step later (k + 1)
    cases found : target.bind s.outcome? with
    | none =>
      refine ⟨j, ?_⟩
      simp only [waitIn, wait, found, round]
      exact rest
    | some outcome =>
      cases outcome with
      | pending =>
        refine ⟨j, ?_⟩
        simp only [waitIn, wait, found, round]
        exact rest
      | done r =>
        refine ⟨k, ?_⟩
        simp only [waitIn, wait, found]
        rfl

/-- On a tracked session, evaluation with every round in an order of the scheduled workers answers
and leaves the session as evaluation with the session's own rounds. The induction follows the
postfix tokens; each operation is a request, which keeps the invariant and the schedule, and a
wait, which `Tracks.waitIn_eq` settles. -/
theorem Tracks.evaluateIn_eq (tracks : s.Tracks log) (perms : ∀ k, (orders k).Perm s.scheduled)
    (stack : List Float) (texts : List String) (k : Nat) :
    ∃ j, evaluateIn orders stack texts (s, k) = withCount j (evaluate stack texts s) := by
  induction texts generalizing stack s log k with
  | nil =>
    refine ⟨k, ?_⟩
    rcases stack with _ | ⟨v, _ | ⟨w, below⟩⟩ <;> rfl
  | cons text rest ih =>
    cases token : Token.ofText? text with
    | none =>
      refine ⟨k, ?_⟩
      simp only [evaluateIn, evaluate, token]
      rfl
    | some tok =>
      cases tok with
      | num t =>
        simp only [evaluateIn, evaluate, token]
        exact ih tracks perms _ k
      | op o =>
        rcases stack with _ | ⟨b, _ | ⟨a, below⟩⟩
        · refine ⟨k, ?_⟩
          simp only [evaluateIn, evaluate, token]
          rfl
        · refine ⟨k, ?_⟩
          simp only [evaluateIn, evaluate, token]
          rfl
        · cases asked : request o a b s with
          | error e s1 =>
            refine ⟨k, ?_⟩
            simp only [evaluateIn, evaluate, token, asked]
            rfl
          | ok id s1 =>
            obtain ⟨-, -, queued⟩ := request_eq_ok asked
            subst queued
            have tracks1 := tracks.enqueue (o := o) a b
            have perms1 := perms_of_scheduled_eq (enqueue_scheduled (o := o) (a := a) (b := b)) perms
            obtain ⟨j, waited⟩ := tracks1.waitIn_eq perms1 (some id) evalBudget k
            obtain ⟨n, rounds⟩ := wait_after (some id) evalBudget (s.enqueue o a b)
            simp only [evaluateIn, evaluate, token, asked, waited]
            cases result : wait (some id) evalBudget (s.enqueue o a b) with
            | ok answer s2 =>
              cases answer with
              | ok v =>
                -- the wait ran rounds only, so the invariant and the schedule still hold
                have reached : s2 = Session.step^[n] (s.enqueue o a b) := by
                  rw [result] at rounds
                  exact rounds
                have tracks2 : s2.Tracks (log ++ [⟨o, a, b⟩]) := reached ▸ tracks1.iterate n
                have perms2 : ∀ i, (orders i).Perm s2.scheduled :=
                  perms_of_scheduled_eq (by rw [reached, iterate_step_scheduled]) perms1
                exact ih tracks2 perms2 (v :: below) j
              | error f => exact ⟨j, rfl⟩
            | error e s2 => exact ⟨j, rfl⟩
      | _ =>
        -- a parenthesis is no postfix text: both refuse it at once
        refine ⟨k, ?_⟩
        simp only [evaluateIn, evaluate, token]
        rfl

end Session

namespace Client

theorem Runs.tracks {cmds : List Command} {c : Client} (run : Client.new.Runs cmds c) :
    ∃ log, c.session.Tracks log := by
  obtain ⟨log, -, tracks, -⟩ :=
    runs_settle ⟨[], .refl, Session.tracks_new, by simp [Client.new]⟩ run
  exact ⟨log, tracks⟩

/-- The activation order of the workers does not matter. On every session a client can reach, two
rounds that activate the scheduled workers in any two orders leave the same session, and rounds
one after another, each in any order of the scheduled workers, reach the states of as many of the
session's own rounds, so what is waited for and computed through them is the same. -/
theorem rounds_ignore_activation_order {cmds : List Command} {c : Client}
    (run : Client.new.Runs cmds c) :
    (∀ order order' : List Op, order.Perm c.session.scheduled → order'.Perm c.session.scheduled →
        c.session.stepIn order = c.session.stepIn order') ∧
      ∀ orders : List (List Op), (∀ order ∈ orders, order.Perm c.session.scheduled) →
        orders.foldl Session.stepIn c.session = Session.step^[orders.length] c.session := by
  obtain ⟨log, tracks⟩ := run.tracks
  refine ⟨fun order order' perm perm' => ?_, tracks.rounds_perm⟩
  rw [tracks.stepIn_perm perm, tracks.stepIn_perm perm']

theorem two_requests_any_activation_order :
    Client.new.Runs [.request "+" 2 3, .request "*" 4 5]
        ⟨(Session.new.enqueue .add 2 3).enqueue .mul 4 5, #[0, 1]⟩ ∧
      [Op.mul, .add, .sub, .div, .pow].Perm Op.all ∧ Op.all.Perm Op.all ∧
      ((Session.new.enqueue .add 2 3).enqueue .mul 4 5).stepIn [.mul, .add, .sub, .div, .pow] =
        ((Session.new.enqueue .add 2 3).enqueue .mul 4 5).stepIn Op.all := by
  have run : Client.new.Runs [.request "+" 2 3, .request "*" 4 5]
      ⟨(Session.new.enqueue .add 2 3).enqueue .mul 4 5, #[0, 1]⟩ :=
    .cons rfl (.cons rfl (.nil _))
  have perm : [Op.mul, .add, .sub, .div, .pow].Perm Op.all := by decide
  exact ⟨run, perm, List.Perm.refl _,
    (rounds_ignore_activation_order run).1 [.mul, .add, .sub, .div, .pow] Op.all perm
      (List.Perm.refl _)⟩

/-- Nor do waiting and evaluation depend on the activation order. On every session a client can
reach, when each round activates the scheduled workers in an order of its own, waiting and
evaluating answer as with the session's own rounds and leave the same session. -/
theorem waits_and_evaluations_ignore_activation_order {cmds : List Command} {c : Client}
    (run : Client.new.Runs cmds c) {orders : Nat → List Op}
    (perms : ∀ k, (orders k).Perm c.session.scheduled) (k : Nat) :
    (∀ target budget, ∃ j, Session.waitIn orders target budget (c.session, k) =
        Session.withCount j (Session.wait target budget c.session)) ∧
      ∀ stack texts, ∃ j, Session.evaluateIn orders stack texts (c.session, k) =
        Session.withCount j (Session.evaluate stack texts c.session) := by
  obtain ⟨log, tracks⟩ := run.tracks
  exact ⟨fun target budget => tracks.waitIn_eq perms target budget k,
    fun stack texts => tracks.evaluateIn_eq perms stack texts k⟩

end Client

end AgentLab.Calc
