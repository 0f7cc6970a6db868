import AgentLab.Calc.Postfix
/-!
A calculator session: one worker per operator, each with a queue of tasks, and a store of
outcomes by task. A request puts a task at the end of its worker's queue with a pending outcome;
a round lets every scheduled worker take the task at the front of its queue and store its outcome;
waiting runs rounds until the outcome is in or a budget of rounds is spent. Evaluation of postfix
tokens sends each operation through this machinery. A failure keeps the state reached.
-/

namespace AgentLab.Calc

structure Task where
  id : Nat
  a : Float
  b : Float

inductive Outcome where
  | pending
  | done (r : Except ArithFault Float)

/-- How the directory answers a look-up of a worker by its operator: a roster (the shape a session
starts with) is searched in order, a table maps operators to workers, a query fails for an
operator with no scheduled worker, and the hidden shape finds none. Whatever the shape, a worker
taken off the schedule is not found. -/
inductive Directory where
  | roster
  | table
  | query
  | hidden
  deriving DecidableEq, Repr

def queryWorker (scheduled : List Op) (o : Op) : Except Unit Op :=
  if scheduled.contains o then .ok o else .error ()

def Directory.lookup (scheduled : List Op) : Directory → Op → Option Op
  | .roster, o => scheduled.find? (· == o)
  | .table, o => (scheduled.map fun p => (p, p)).lookup o
  | .query, o =>
    match queryWorker scheduled o with
    | .ok w => some w
    | .error _ => none
  | .hidden, _ => none

inductive SessionFault where
  | unsupported (symbol : String)
  | noWorker
  | timedOut
  | eval (f : EvalFault)
  | notScheduled (o : Op)

namespace SessionFault

def message : SessionFault → String
  | unsupported s => "Operador '" ++ s ++ "' no soportado"
  | noWorker => "Agente de operación no encontrado"
  | timedOut => "Tiempo de espera agotado para la operación"
  | eval f => f.message
  | notScheduled o => "'" ++ o.workerName ++ "'"

def kind : SessionFault → FaultKind
  | noWorker => .missing
  | timedOut => .timedOut
  | notScheduled _ => .missingKey
  | _ => .badValue

def toFailure (f : SessionFault) : Failure := ⟨f.kind, f.message⟩

end SessionFault

structure Session where
  queues : Op → List Task
  scheduled : List Op
  directory : Directory
  outcomes : Array Outcome

/-- A computation on a session that may fail; a failure keeps the state reached. -/
abbrev SessionM := EStateM SessionFault Session

namespace Session

/-- A fresh session: empty queues, every worker scheduled, listed in a roster. -/
def new : Session := ⟨fun _ => [], Op.all, .roster, #[]⟩

def setQueue (s : Session) (o : Op) (q : List Task) : Session :=
  { s with queues := fun p => if p = o then q else s.queues p }

def finds (s : Session) (o : Op) : Bool :=
  (s.directory.lookup s.scheduled o).isSome

def outcome? (s : Session) (id : Nat) : Option Outcome :=
  s.outcomes[id]?

def request (o : Op) (a b : Float) : SessionM Nat := fun s =>
  if s.finds o then
    let id := s.outcomes.size
    .ok id { s.setQueue o (s.queues o ++ [⟨id, a, b⟩]) with outcomes := s.outcomes.push .pending }
  else .error .noWorker s

def requestSymbol (symbol : String) (a b : Float) : SessionM Nat := fun s =>
  match Op.ofSymbol? symbol with
  | some o => request o a b s
  | none => .error (.unsupported symbol) s

def work (s : Session) (o : Op) : Session :=
  match s.queues o with
  | [] => s
  | t :: rest => { s.setQueue o rest with
      outcomes := s.outcomes.setIfInBounds t.id (.done (o.apply t.a t.b)) }

/-- A round in which the workers of `order` work once each, in that order. -/
def stepIn (s : Session) (order : List Op) : Session :=
  order.foldl work s

/-- One round: every scheduled worker works once. -/
def step (s : Session) : Session :=
  s.stepIn s.scheduled

/-- Takes a worker off the schedule; its queue stays as it is. Refused for a worker that is not
on it. -/
def retire (o : Op) : SessionM Unit := fun s =>
  if s.scheduled.contains o then .ok () { s with scheduled := s.scheduled.filter (· != o) }
  else .error (.notScheduled o) s

/-- The outcome of a task once it is in, running a round each time it is not, for at most
`budget` looks. A target of `none` names no task, so only rounds are run. -/
def wait (target : Option Nat) : Nat → SessionM (Except ArithFault Float)
  | 0 => fun s => .error .timedOut s
  | budget + 1 => fun s =>
    match target.bind s.outcome? with
    | some (.done r) => .ok r s
    | _ => wait target budget s.step

/-- The budget of a wait when none is given; evaluation waits for each operation with it. -/
def evalBudget : Nat := 1000

/-- Runs postfix token texts with each operation sent to its worker, on a stack top first. -/
def evaluate (stack : List Float) : List String → SessionM Float
  | [] => fun s =>
    match stack with
    | [v] => .ok v s
    | _ => .error (.eval .leftover) s
  | text :: rest => fun s =>
    match Token.ofText? text with
    | some (.num t) => evaluate (numeralValue t :: stack) rest s
    | some (.op o) =>
      match stack with
      | b :: a :: below =>
        match request o a b s with
        | .ok id s =>
          match wait (some id) evalBudget s with
          | .ok (.ok v) s => evaluate (v :: below) rest s
          | .ok (.error f) s => .error (.eval (.operation f)) s
          | .error e s => .error e s
        | .error e s => .error e s
      | _ => .error (.eval .tooFew) s
    | _ => .error (.eval (.unknown text)) s

end Session

end AgentLab.Calc
