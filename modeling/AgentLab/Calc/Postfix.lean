import AgentLab.Calc.Token
/-!
Postfix form of an expression. `toPostfix` reorders infix tokens by operator precedence and
grouping with an operator stack, leaving numerals in their order; `evalPostfix` runs postfix
tokens on a stack of doubles, each operator taking the two values under it.

Expression trees are the other side of both: a numeral, or an operator over a left and a right
expression. A tree has a postfix form, its tokens with each operator after its two operands, and a
value, computed left side first, then right side, then the operator, so the first operation to
fail is the first in postfix order.
-/

namespace AgentLab.Calc

/-- Why a token sequence has no postfix form: its parentheses do not match, or a text is no token. -/
inductive SyntaxFault where
  | unbalanced
  | unknown (text : String)
  deriving DecidableEq, Repr

def SyntaxFault.message : SyntaxFault → String
  | unbalanced => "Paréntesis mismatched"
  | unknown text => "Token desconocido: " ++ text

/-- Why postfix tokens have no value: an operator finds fewer than two values, an operation refuses
its operands, a text is neither a numeral nor an operator, or the tokens leave other than one value. -/
inductive EvalFault where
  | tooFew
  | operation (f : ArithFault)
  | unknown (text : String)
  | leftover
  deriving DecidableEq, Repr

def EvalFault.message : EvalFault → String
  | tooFew => "Expresión inválida"
  | operation f => "Error en operación: " ++ f.message
  | unknown text => "Operador desconocido en RPN: " ++ text
  | leftover => "Expresión inválida al finalizar evaluación"

/-- The operator on top of the stack leaves it before `o` goes on: it binds tighter, or as tight
when `o` groups to the left. -/
def yieldsTo (o : Op) : Token → Bool
  | .op p => if o.rightAssoc then o.precedence < p.precedence else o.precedence ≤ p.precedence
  | _ => false

/-- Shunting-yard over texts: `out` is the postfix so far, `stack` the pending operators and open
parentheses with the top first. -/
def shunt (out stack : List Token) : List String → Except SyntaxFault (List Token)
  | [] => if stack.contains .openParen then .error .unbalanced else .ok (out ++ stack)
  | text :: rest =>
    match Token.ofText? text with
    | some (.num t) => shunt (out ++ [.num t]) stack rest
    | some (.op o) =>
      shunt (out ++ stack.takeWhile (yieldsTo o)) (.op o :: stack.dropWhile (yieldsTo o)) rest
    | some .openParen => shunt out (.openParen :: stack) rest
    | some .closeParen =>
      match stack.dropWhile (· != .openParen) with
      | .openParen :: below => shunt (out ++ stack.takeWhile (· != .openParen)) below rest
      | _ => .error .unbalanced
    | none => .error (.unknown text)

def toPostfix (texts : List String) : Except SyntaxFault (List String) :=
  (shunt [] [] texts).map (·.map Token.text)

example : (toPostfix ["3", "+", "4", "*", "2", "/", "(", "1", "-", "5", ")", "^", "2", "^", "3"]).toOption =
    some ["3", "4", "2", "*", "1", "5", "-", "2", "3", "^", "^", "/", "+"] := by decide +kernel

def evalPostfix (stack : List Float) : List String → Except EvalFault Float
  | [] =>
    match stack with
    | [v] => .ok v
    | _ => .error .leftover
  | text :: rest =>
    match Token.ofText? text with
    | some (.num t) => evalPostfix (numeralValue t :: stack) rest
    | some (.op o) =>
      match stack with
      | b :: a :: below =>
        match o.apply a b with
        | .ok v => evalPostfix (v :: below) rest
        | .error f => .error (.operation f)
      | _ => .error .tooFew
    | _ => .error (.unknown text)

/-! ## Expression trees -/

inductive Expr where
  | num (text : String)
  | bin (o : Op) (l r : Expr)
  deriving DecidableEq, Repr

namespace Expr

def postorder : Expr → List String
  | num t => [t]
  | bin o l r => l.postorder ++ r.postorder ++ [o.symbol]

/-- The value: a numeral is the double nearest it, an operator applies to the values of its
sides, the left computed first. -/
def value : Expr → Except ArithFault Float
  | num t => .ok (numeralValue t)
  | bin o l r => do
    let a ← l.value
    let b ← r.value
    o.apply a b

def WellFormed : Expr → Prop
  | num t => isNumeral t.toList = true
  | bin _ l r => l.WellFormed ∧ r.WellFormed

end Expr

end AgentLab.Calc
