import AgentLab.Calc.Op
import AgentLab.Decimal.Read
/-!
Tokens of arithmetic expressions: numerals, operators and parentheses. A numeral is a run of
decimal digits of any script, optionally followed by a point and another run; it keeps the text it
was written with and stands for the double nearest its value.
-/

namespace AgentLab.Calc

inductive Token where
  | num (text : String)
  | op (o : Op)
  | openParen
  | closeParen
  deriving DecidableEq, Repr

def isNumeral (cs : List Char) : Bool :=
  match cs.dropWhile Text.isDigit with
  | [] => !cs.isEmpty
  | '.' :: rest => !(cs.takeWhile Text.isDigit).isEmpty && !rest.isEmpty && rest.all Text.isDigit
  | _ => false

example : isNumeral "12.5".toList ∧ !isNumeral "1.".toList ∧ !isNumeral ".5".toList ∧
    isNumeral "١٢".toList ∧ !isNumeral "".toList := by decide +kernel

/-- The value of a numeral: the double nearest the decimal it writes. -/
def numeralValue (text : String) : Float :=
  ((Literal.read? text).map Literal.toFloat).getD 0

namespace Token

def text : Token → String
  | num t => t
  | op o => o.symbol
  | openParen => "("
  | closeParen => ")"

def ofText? (s : String) : Option Token :=
  if isNumeral s.toList then some (num s)
  else match Op.ofSymbol? s with
    | some o => some (op o)
    | none => if s = "(" then some openParen else if s = ")" then some closeParen else none

def ofSymbolChar? : Char → Option Token
  | '+' => some (op .add)
  | '-' => some (op .sub)
  | '*' => some (op .mul)
  | '/' => some (op .div)
  | '^' => some (op .pow)
  | '(' => some openParen
  | ')' => some closeParen
  | _ => none

end Token

end AgentLab.Calc
