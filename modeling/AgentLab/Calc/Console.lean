import AgentLab.Calc.Lexer
import AgentLab.Calc.Session
import AgentLab.Decimal.Notation
/-!
The calculator's console. It reads one line at a time and answers in text: in the expression
loop each line is an expression to evaluate or a word to leave; in the step-by-step dialogue it
asks for a number, an operator and a number and evaluates the expression they make. The
self-check evaluates fixed expressions and compares them with their known values. A console is a
state that says what it waits for; `Console.feed` takes one line and tells what to print.
-/

namespace AgentLab.Calc

/-- Evaluates an infix expression on a session: tokens, postfix order, then the workers. -/
def calculate (s : Session) (expr : String) : Except String Float × Session :=
  match tokenize expr with
  | .error f => (.error f.message, s)
  | .ok ts =>
    match toPostfix (ts.map Token.text) with
    | .error f => (.error f.message, s)
    | .ok ps =>
      match Session.evaluate [] ps s with
      | .ok v s => (.ok v, s)
      | .error e s => (.error e.message, s)

def showNumber (x : Float) : String :=
  Decimal.Notation.general.write x

/-- What the console waits for: an expression or a word to leave; in the step-by-step dialogue the
first operand, the operator, then the second operand; or nothing, once it has ended. -/
inductive Console where
  | expressions (s : Session)
  | firstOperand (s : Session)
  | operator (s : Session) (a : Float)
  | secondOperand (s : Session) (a : Float) (o : Op)
  | finished

def leaveWords : List String := ["salir", "exit", "q"]

def selfChecks : List (String × Float) :=
  [("2 + 3 * 4 - 5", 9.0), ("(2 + 3) * (4 - 1) / 5 + 2^3", 11.0),
   ("3 + 4 * 2 / ( 1 - 5 ) ^ 2 ^ 3", 3.0001220703125), ("4 / 2 + 1", 3.0)]

/-- The text of the self-check: each expression with its value and verdict, then the check that
a division by zero fails, then the summary. -/
def selfCheck : String := Id.run do
  let mut s := Session.new
  let mut out := "Ejecutando tests básicos...\n"
  let mut allPass := true
  for (expr, expected) in selfChecks do
    let (r, s2) := calculate s expr
    s := s2
    match r with
    | .ok v =>
      out := out ++ expr ++ " = " ++ showNumber v ++ " (expected " ++ showNumber expected ++ ")\n"
      if (v - expected).abs > 1e-9 then
        out := out ++ "  -> FAIL\n"
        allPass := false
      else out := out ++ "  -> OK\n"
    | .error e =>
      out := out ++ "Error evaluando " ++ expr ++ ": " ++ e ++ "\n"
      allPass := false
  match (calculate s "1 / 0").1 with
  | .ok _ =>
    out := out ++ "1 / 0 did not raise (FAIL)\n"
    allPass := false
  | .error _ => out := out ++ "1 / 0 raised as expected -> OK\n"
  out := out ++ (if allPass then "Todos los tests pasaron.\n\n" else "Algunos tests fallaron.\n\n")
  return out

namespace Console

/-- The console of the expression loop, with the text it starts with; with the test flag among
the arguments it runs the self-check instead. -/
def start (args : List String) : String × Console :=
  if args.contains "--test" then
    ("Modo test activado (--test). Ejecutando tests básicos y saliendo.\n" ++ selfCheck, finished)
  else
    ("Escribe una expresión completa para evaluar (ej: 2 + 3 * 4 - 5)\n" ++
      "Para salir escribe 'salir', 'exit' o 'q'\n\n", expressions Session.new)

def dialogue : String × Console := ("", firstOperand Session.new)

def prompt : Console → Option String
  | expressions _ => some "Ingresa la expresión completa (o 'salir' para terminar): "
  | firstOperand _ => some "Ingresa el primer número: "
  | operator _ _ => some ("Ingresa el operador (" ++ " ".intercalate (Op.all.map Op.symbol) ++ "): ")
  | secondOperand _ _ _ => some "Ingresa el segundo número: "
  | finished => none

/-- Takes one line: the text to print and what to wait for next. -/
def feed : Console → String → String × Console
  | expressions s, line =>
    let expr := Text.trimBlanks line
    if expr.isEmpty then ("", expressions s)
    else if leaveWords.contains (String.ofList (expr.toList.map Char.toLower)) then
      ("Saliendo. ¡Hasta luego!\n", finished)
    else
      match calculate s expr with
      | (.ok v, s) => ("Resultado: " ++ showNumber v ++ "\n\n", expressions s)
      | (.error e, s) => ("Error al evaluar la expresión: " ++ e ++ "\n\n", expressions s)
  | firstOperand s, line =>
    match Literal.read? (Text.trimBlanks line) with
    | some a => ("", operator s a.toFloat)
    | none => ("Entrada inválida. Ingresa un número.\n", firstOperand s)
  | operator s a, line =>
    match Op.ofSymbol? (Text.trimBlanks line) with
    | some o => ("", secondOperand s a o)
    | none => ("Operador inválido.\n", operator s a)
  | secondOperand s a o, line =>
    match Literal.read? (Text.trimBlanks line) with
    | some b =>
      let expr := showNumber a ++ " " ++ o.symbol ++ " " ++ showNumber b.toFloat
      match (calculate s expr).1 with
      | .ok v => ("Expresión: " ++ expr ++ "\nResultado: " ++ showNumber v ++ "\n\n", finished)
      | .error e => ("Error al evaluar: " ++ e ++ "\n\n", finished)
    | none => ("Entrada inválida. Ingresa un número.\n", secondOperand s a o)
  | finished, _ => ("", finished)

end Console

structure Transcript where
  output : String
  inputEnded : Bool

def Transcript.failure (t : Transcript) : Option Failure :=
  if t.inputEnded then some ⟨.endOfInput, "EOF when reading a line"⟩ else none

/-- Runs a console on input lines: each prompt, then what the line makes it print, until it
finishes or the lines run out. -/
def Console.run (c : Console) (lines : List String) : Transcript :=
  match c.prompt, lines with
  | none, _ => ⟨"", false⟩
  | some p, [] => ⟨p, true⟩
  | some p, line :: rest =>
    let (out, next) := c.feed line
    let t := next.run rest
    ⟨p ++ out ++ t.output, t.inputEnded⟩

def Console.session (opening : String × Console) (lines : List String) : Transcript :=
  let t := opening.2.run lines
  ⟨opening.1 ++ t.output, t.inputEnded⟩

end AgentLab.Calc
