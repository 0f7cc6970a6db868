import AgentLab.Calc.Lexer
import AgentLab.Calc.Session
import AgentLab.Arg
/-!
A client of a calculator session. It sends commands one at a time and keeps a handle for each
task it requested itself, numbered from zero. Each command answers a `Reply` with the fields it
fills; a refused command answers its failure, and the session keeps the state it reached.
-/

namespace AgentLab.Calc

inductive Stage where
  | scan
  | order
  | evaluate
  deriving DecidableEq, Repr

/-- What a client asks of a session. A wait without a handle waits for a task never requested, so
it only runs rounds. -/
inductive Command where
  | tokenize (expr : Arg)
  | toPostfix (texts : List String)
  | evaluate (texts : List String)
  | eval (expr : Arg)
  | request (symbol : String) (a b : Float)
  | step
  | result (handle : Nat)
  | directory (d : Directory)
  | retire (symbol : String)
  | wait (handle : Option Nat) (budget : Int)
  | queues

structure Reply where
  tokens : Option (List String) := none
  rpn : Option (List String) := none
  value : Option Float := none
  handle : Option Nat := none
  outcome : Option Outcome := none
  stage : Option Stage := none
  failure : Option Failure := none

/-- The tokens of an expression passed as an argument: a text is scanned, an empty list or table
has no tokens, and other arguments are refused. -/
def tokenizeArg : Arg → Except Failure (List String)
  | .text s =>
    match tokenize s with
    | .ok ts => .ok (ts.map Token.text)
    | .error f => .error ⟨.badValue, f.message⟩
  | .list 0 | .table 0 => .ok []
  | a@(.list _) | a@(.table _) =>
    .error ⟨.badType, "expected string or bytes-like object, got '" ++ a.typeName ++ "'"⟩
  | a => .error ⟨.badType, "object of type '" ++ a.typeName ++ "' has no len()"⟩

structure Client where
  session : Session
  handles : Array Nat

namespace Client

def new : Client := ⟨Session.new, #[]⟩

def attempt {α : Type} (c : Client) (m : SessionM α) : Except Failure α × Client :=
  match m c.session with
  | .ok a s => (.ok a, { c with session := s })
  | .error e s => (.error e.toFailure, { c with session := s })

/-- All stages on an expression; the reply holds what each stage gave up to a failure. -/
def evalExpr (c : Client) (expr : Arg) : Reply × Client :=
  match tokenizeArg expr with
  | .error f => ({ failure := some f, stage := some .scan }, c)
  | .ok ts =>
    match toPostfix ts with
    | .error f =>
      ({ tokens := some ts, failure := some (Failure.mk .badValue f.message), stage := some .order }, c)
    | .ok ps =>
      match c.attempt (Session.evaluate [] ps) with
      | (.ok v, c) => ({ tokens := some ts, rpn := some ps, value := some v }, c)
      | (.error f, c) =>
        ({ tokens := some ts, rpn := some ps, failure := some f, stage := some .evaluate }, c)

/-- Runs one command; `none` when it names a handle that was never given. -/
def run (c : Client) : Command → Option (Reply × Client)
  | .tokenize expr =>
    match tokenizeArg expr with
    | .ok ts => some ({ tokens := some ts }, c)
    | .error f => some ({ failure := some f }, c)
  | .toPostfix texts =>
    match Calc.toPostfix texts with
    | .ok ps => some ({ rpn := some ps }, c)
    | .error f => some ({ failure := some ⟨.badValue, f.message⟩ }, c)
  | .evaluate texts =>
    match c.attempt (Session.evaluate [] texts) with
    | (.ok v, c) => some ({ value := some v }, c)
    | (.error f, c) => some ({ failure := some f }, c)
  | .eval expr => some (c.evalExpr expr)
  | .request symbol a b =>
    match c.attempt (Session.requestSymbol symbol a b) with
    | (.ok id, c) =>
      some ({ handle := some c.handles.size }, { c with handles := c.handles.push id })
    | (.error f, c) => some ({ failure := some f }, c)
  | .step => some ({}, { c with session := c.session.step })
  | .result h => do
    let id ← c.handles[h]?
    let o ← c.session.outcome? id
    some ({ outcome := some o }, c)
  | .directory d => some ({}, { c with session := { c.session with directory := d } })
  | .retire symbol =>
    match Op.ofSymbol? symbol with
    | some o =>
      match c.attempt (Session.retire o) with
      | (.ok (), c) => some ({}, c)
      | (.error f, c) => some ({ failure := some f }, c)
    | none => some ({ failure := some ⟨.missingKey, Text.quote symbol⟩ }, c)
  | .wait handle budget => do
    let target ← match handle with
      | some h => (c.handles[h]?).map some
      | none => some none
    match c.attempt (Session.wait target budget.toNat) with
    | (.ok r, c) => some ({ outcome := some (.done r) }, c)
    | (.error f, c) => some ({ failure := some f }, c)
  | .queues => some ({}, c)

end Client

end AgentLab.Calc
