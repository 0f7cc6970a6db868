import AgentLab.Calc.Token
import AgentLab.Text
/-!
Splitting an expression into tokens. Blanks may stand before each token; a token is the longest
numeral at that place or a single operator or parenthesis. Text that starts no token, blanks at
the very end included, is refused with the rest of the input from the failing place.
-/

namespace AgentLab.Calc

structure LexFault where
  rest : String
  deriving DecidableEq, Repr

def LexFault.message (f : LexFault) : String :=
  "Token inválido cerca de: " ++ f.rest

/-- A numeral starting with `c`: `c` and the digits after it, then a point and digits when a digit
follows the point; with the text after it. -/
def numeralPrefix (c : Char) (cs : List Char) : List Char × List Char :=
  let whole := c :: cs.takeWhile Text.isDigit
  match cs.dropWhile Text.isDigit with
  | '.' :: d :: more =>
    if Text.isDigit d then
      (whole ++ '.' :: d :: more.takeWhile Text.isDigit, more.dropWhile Text.isDigit)
    else (whole, '.' :: d :: more)
  | rest => (whole, rest)

theorem numeralPrefix_suffix (c : Char) (cs : List Char) : (numeralPrefix c cs).2 <:+ cs := by
  have h : cs.dropWhile Text.isDigit <:+ cs := List.dropWhile_suffix Text.isDigit
  unfold numeralPrefix
  split
  · rename_i d more heq
    rw [heq] at h
    split
    · exact (List.dropWhile_suffix Text.isDigit).trans
        ((List.suffix_cons _ _).trans ((List.suffix_cons _ _).trans h))
    · exact h
  · exact h

/-- The token at the front of a text that starts with no blank, and the text after it. -/
def lexeme? : List Char → Option (Token × List Char)
  | [] => none
  | c :: cs =>
    if Text.isDigit c then
      let (numeral, rest) := numeralPrefix c cs
      some (.num (String.ofList numeral), rest)
    else (Token.ofSymbolChar? c).map fun t => (t, cs)

theorem lexeme?_length {cs rest : List Char} {t : Token} (h : lexeme? cs = some (t, rest)) :
    rest.length < cs.length := by
  cases cs with
  | nil => simp [lexeme?] at h
  | cons c cs =>
    simp only [lexeme?] at h
    split at h
    · simp only [Option.some.injEq, Prod.mk.injEq] at h
      have := (numeralPrefix_suffix c cs).length_le
      rw [← h.2]
      simp only [List.length_cons]
      omega
    · simp only [Option.map_eq_some_iff, Prod.mk.injEq] at h
      obtain ⟨_, _, _, rfl⟩ := h
      simp

/-- The tokens of a text, blanks before each token skipped. -/
def scan (cs : List Char) : Except LexFault (List Token) :=
  if cs.isEmpty then .ok []
  else
    match found : lexeme? (cs.dropWhile Text.isBlank) with
    | none => .error ⟨String.ofList cs⟩
    | some (t, rest) =>
      have : rest.length < cs.length :=
        Nat.lt_of_lt_of_le (lexeme?_length found) (List.dropWhile_suffix Text.isBlank).length_le
      (scan rest).map (t :: ·)
termination_by cs.length

def tokenize (s : String) : Except LexFault (List Token) :=
  scan s.toList

example : (tokenize "2 + 3.5*(4)").toOption.map (·.map Token.text) =
    some ["2", "+", "3.5", "*", "(", "4", ")"] := by decide +kernel

example : (tokenize "2 + 3 ").toOption = none := by decide +kernel

end AgentLab.Calc
