import AgentLab.Proofs.Pipeline
import AgentLab.Proofs.Scanning
import AgentLab.Proofs.Grouping
import AgentLab.Proofs.PostfixWords
/-!
The step-by-step dialogue. It reads two numbers and an operator, writes them back as text in
general notation with blanks around the operator, and evaluates that text as an expression. The
expression language has numerals of digits and a point only, so the operator is computed exactly
when both numbers are written that way: not negative, finite, and zero or with their leading
digit from `10⁻⁴` to `10¹⁵`, given that their texts read back as the same doubles. Otherwise the
dialogue prints an error and no result: a minus sign is read as one operator too many, and the
`e` of an exponent or a letter of `inf` or `nan` does not scan.
-/

namespace AgentLab

theorem Text.isDigit_of_ascii {c : Char} (ascii : c.isDigit = true) : Text.isDigit c = true := by
  simp only [Char.isDigit, Bool.and_eq_true, decide_eq_true_eq] at ascii
  have low : 48 ≤ c.toNat := ascii.1
  have high : c.toNat ≤ 57 := ascii.2
  simp [Text.isDigit, Text.digitValue?, Text.digitZeros, low, show c.toNat < 58 by omega]

namespace Decimal

def DigitRun (cs : List Char) : Prop :=
  cs ≠ [] ∧ ∀ c ∈ cs, Text.isDigit c = true

theorem digitText_digits (n : Nat) : ∀ c ∈ (digitText n).toList, Text.isDigit c = true := by
  intro c member
  rw [digitText, String.toList_ofList] at member
  exact Text.isDigit_of_ascii (Nat.isDigit_of_mem_toDigits (by decide) (by decide) member)

theorem digitText_ne_nil (n : Nat) : (digitText n).toList ≠ [] := by
  rw [digitText, String.toList_ofList]
  exact Nat.toDigits_ne_nil

theorem zeros_digits (k : Nat) : ∀ c ∈ List.replicate k '0', Text.isDigit c = true := by
  intro c member
  rw [List.eq_of_mem_replicate member]
  decide

theorem padded_digits (places n : Nat) :
    places + 1 ≤ (String.ofList (List.replicate (places + 1 - (digitText n).length) '0') ++
        digitText n).toList.length ∧
      ∀ c ∈ (String.ofList (List.replicate (places + 1 - (digitText n).length) '0') ++
        digitText n).toList, Text.isDigit c = true := by
  simp only [String.toList_append, String.toList_ofList, List.length_append, List.length_replicate,
    String.length_toList, List.mem_append]
  refine ⟨by omega, fun c member => ?_⟩
  rcases member with zero | inText
  · exact zeros_digits _ c zero
  · exact digitText_digits _ c inText

theorem split_digits (d : Decimal) :
    DigitRun (split d).1.toList ∧ ∀ c ∈ (split d).2.toList, Text.isDigit c = true := by
  unfold split
  split
  · refine ⟨⟨?_, ?_⟩, by simp⟩
    · rw [String.toList_append]
      exact List.append_ne_nil_of_left_ne_nil (digitText_ne_nil _) _
    · intro c member
      simp only [String.toList_append, String.toList_ofList, List.mem_append] at member
      rcases member with inText | zero
      · exact digitText_digits _ c inText
      · exact zeros_digits _ c zero
  · -- the places after the point take the last digits of the padded text, and some are left
    dsimp only
    obtain ⟨long, digits⟩ := padded_digits (-d.exponent).toNat d.digits
    generalize String.ofList (List.replicate ((-d.exponent).toNat + 1 - (digitText d.digits).length)
      '0') ++ digitText d.digits = padded at long digits ⊢
    rw [← String.length_toList]
    simp only [String.toList_ofList]
    refine ⟨⟨?_, fun c member => digits c (List.mem_of_mem_take member)⟩,
      fun c member => digits c (List.mem_of_mem_drop member)⟩
    rw [ne_eq, List.take_eq_nil_iff, not_or]
    refine ⟨by omega, fun empty => ?_⟩
    rw [empty, List.length_nil] at long
    omega

def lead (d : Decimal) : Int := d.exponent + (digitText d.digits).length - 1

def Plain (d : Decimal) : Prop :=
  d.digits = 0 ∨ -4 ≤ d.lead ∧ d.lead < 16

theorem isNumeral_layout {d : Decimal} (plain : d.Plain) :
    Calc.isNumeral (Notation.general.layout d).toList = true := by
  obtain ⟨⟨nonempty, wholeDigits⟩, fractionDigits⟩ := split_digits d
  unfold Notation.layout
  dsimp only
  split
  · decide
  · rename_i nonzero
    rw [if_pos (by simpa [lead, Notation.general] using plain.resolve_left nonzero)]
    generalize split d = parts at nonempty wholeDigits fractionDigits ⊢
    obtain ⟨whole, fraction⟩ := parts
    dsimp only at nonempty wholeDigits fractionDigits ⊢
    simp only [Notation.general, ↓reduceIte]
    split
    · have written : (whole ++ ".0").toList = whole.toList ++ '.' :: ['0'] := by simp
      rw [written, Calc.isNumeral_digits_point wholeDigits nonempty]
      decide
    · rename_i some
      have written : (whole ++ "." ++ fraction).toList = whole.toList ++ '.' :: fraction.toList := by
        simp
      have filled : fraction ≠ "" := by simpa [String.isEmpty_iff] using some
      rw [written, Calc.isNumeral_digits_point wholeDigits nonempty]
      simpa [filled] using fractionDigits

theorem layout_shapes (d : Decimal) : d.Plain ∨ 'e' ∈ (Notation.general.layout d).toList := by
  by_cases plain : d.Plain
  · exact .inl plain
  · refine .inr ?_
    simp only [Plain, not_or, lead] at plain
    unfold Notation.layout
    simp only [plain.1, ↓reduceIte, Notation.general]
    rw [if_neg (by omega)]
    simp

end Decimal

namespace Calc

/-- A double that general notation writes as plain digits and a point: its sign bit is clear, it
is finite, and it is zero or the leading digit of its shortest decimal sits at a place from
`10⁻⁴` to `10¹⁵`. -/
def PlainlyWritten (x : Float) : Prop :=
  ∃ m q, Binary.ofFloat x = .finite false m q ∧ (m = 0 ∨ (Decimal.shortest m q).Plain)

theorem isNumeral_showNumber {x : Float} (plain : PlainlyWritten x) :
    isNumeral (showNumber x).toList = true := by
  obtain ⟨m, q, bits, shortPlain⟩ := plain
  unfold showNumber Decimal.Notation.write
  rw [bits]
  simp only [Bool.false_eq_true, ↓reduceIte, String.empty_append]
  split
  · exact Decimal.isNumeral_layout (.inl rfl)
  · rename_i nonzero
    exact Decimal.isNumeral_layout (shortPlain.resolve_left nonzero)

def TokenChar (c : Char) : Prop :=
  Text.isBlank c = true ∨ Text.isDigit c = true ∨ c = '.' ∨ (Token.ofSymbolChar? c).isSome = true

instance : DecidablePred TokenChar := fun _ =>
  inferInstanceAs (Decidable (_ ∨ _ ∨ _ ∨ _))

theorem isNumeral_chars {cs : List Char} (numeral : isNumeral cs = true) :
    ∀ c ∈ cs, Text.isDigit c = true ∨ c = '.' := by
  intro c member
  rw [← List.takeWhile_append_dropWhile (p := Text.isDigit) (l := cs), List.mem_append] at member
  rcases member with lead | after
  · exact .inl (List.mem_takeWhile_imp lead)
  · unfold isNumeral at numeral
    split at numeral
    · rename_i empty
      rw [empty] at after
      cases after
    · rename_i rest split_eq
      rw [split_eq, List.mem_cons] at after
      rcases after with rfl | later
      · exact .inr rfl
      · simp only [Bool.and_eq_true, List.all_eq_true] at numeral
        exact .inl (numeral.2 c later)
    · cases numeral

theorem tokenize_chars {s : String} {ts : List Token} (lexed : tokenize s = .ok ts) :
    ∀ c ∈ s.toList, TokenChar c := by
  obtain ⟨ps, layout, spelled, -⟩ := scan_eq_ok_iff.mp lexed
  intro c member
  rw [spelled, spaced, List.mem_flatMap] at member
  obtain ⟨p, present, inside⟩ := member
  rcases List.mem_append.mp inside with blank | inText
  · exact .inl (layout.blanks p present c blank)
  · cases kind : p.2.isNum with
    | false =>
      obtain ⟨d, chars, -, -, -, read⟩ := Token.symbol_text kind
      rw [chars, List.mem_singleton] at inText
      subst inText
      exact .inr (.inr (.inr (by simp [read])))
    | true =>
      obtain ⟨blanks, t⟩ := p
      cases t with
      | num text =>
        rcases isNumeral_chars (layout.valid _ present) c inText with digit | point
        · exact .inr (.inl digit)
        · exact .inr (.inr (.inl point))
      | _ => cases kind

/-- General notation writes a double as a numeral, with a minus sign when the sign bit is set and
only then, or with a character no token has: the `e` of an exponent, or a letter of `inf` or
`nan`. -/
theorem showNumber_shapes (x : Float) :
    (∃ (neg : Bool) (numeral : String), showNumber x = (if neg then "-" else "") ++ numeral ∧
        isNumeral numeral.toList = true ∧ (neg = false → PlainlyWritten x)) ∨
      ∃ c ∈ (showNumber x).toList, ¬ TokenChar c := by
  unfold showNumber Decimal.Notation.write
  cases bits : Binary.ofFloat x with
  | nan => exact .inr ⟨'n', by decide, by decide⟩
  | infinite neg => exact .inr ⟨'i', by cases neg <;> decide, by decide⟩
  | finite neg m q =>
    dsimp only
    rcases Decimal.layout_shapes (if m = 0 then ⟨0, 0⟩ else Decimal.shortest m q) with plain | mark
    · refine .inl ⟨neg, _, rfl, Decimal.isNumeral_layout plain, fun positive => ?_⟩
      refine ⟨m, q, positive ▸ bits, ?_⟩
      by_cases zero : m = 0
      · exact .inl zero
      · rw [if_neg zero] at plain
        exact .inr plain
    · refine .inr ⟨'e', ?_, by decide⟩
      rw [String.toList_append, List.mem_append]
      exact .inr mark

theorem calculate_of_ordered {text : String} {ts : List Token} {rpn : List String}
    (lexed : tokenize text = .ok ts) (ordered : toPostfix (ts.map Token.text) = .ok rpn) :
    (calculate Session.new text).1 = (evalPostfix [] rpn).mapError EvalFault.message := by
  obtain ⟨log, s, answer, -⟩ := Session.tracks_new.evaluate_answersAs Session.ready_new [] rpn
  unfold calculate
  cases ran : evalPostfix [] rpn <;>
    simp [lexed, ordered, answer, ran, Session.ending, Except.mapError, SessionFault.message]

theorem Written.tokenize_spaced {e : Expr} {ts : List Token} {wrapped : Bool}
    {ps : List (List Char × Token)} (numerals : e.WellFormed) (written : Written e ts wrapped)
    (spelled : ps.map Prod.snd = ts) (blanks : ∀ p ∈ ps, ∀ c ∈ p.1, Text.isBlank c = true) :
    tokenize (String.ofList (spaced ps)) = .ok ts := by
  -- a writing never puts two numerals side by side, so the blanks may all be empty
  have apart : ps.IsChain fun p q => p.2.isNum = true → q.2.isNum = true → q.1 ≠ [] := by
    have chain := written.apart
    rw [← spelled, List.isChain_map] at chain
    exact chain.imp fun p q sep first second => absurd second (by simp [sep first])
  have valid : ∀ p ∈ ps, p.2.Valid := fun p member =>
    written.valid numerals _ (spelled ▸ List.mem_map_of_mem member)
  rw [tokenize, String.toList_ofList, scan_spaced blanks valid apart, spelled]

/-- On a fresh session the three stages compute a written expression to its value, or fail with
the failure of its first operation that fails. -/
theorem calculate_written {e : Expr} {ts : List Token} {wrapped : Bool}
    {ps : List (List Char × Token)} (numerals : e.WellFormed) (written : Written e ts wrapped)
    (spelled : ps.map Prod.snd = ts) (blanks : ∀ p ∈ ps, ∀ c ∈ p.1, Text.isBlank c = true) :
    (calculate Session.new (String.ofList (spaced ps))).1 =
      e.value.mapError fun f => (EvalFault.operation f).message := by
  rw [calculate_of_ordered (written.tokenize_spaced numerals spelled blanks)
    (written.toPostfix_eq numerals)]
  have ran := evalPostfix_postorder numerals [] []
  rw [List.append_nil] at ran
  rw [ran]
  cases e.value <;> rfl

def operandPieces (gap : List Char) (neg : Bool) (numeral : String) : List (List Char × Token) :=
  if neg then [(gap, .op .sub), ([], .num numeral)] else [(gap, .num numeral)]

def exprPieces (negA : Bool) (numeralA : String) (o : Op) (negB : Bool) (numeralB : String) :
    List (List Char × Token) :=
  operandPieces [] negA numeralA ++ ([' '], .op o) :: operandPieces [' '] negB numeralB

theorem exprPieces_spaced (negA : Bool) (numeralA : String) (o : Op) (negB : Bool)
    (numeralB : String) :
    spaced (exprPieces negA numeralA o negB numeralB) =
      ((if negA then "-" else "") ++ numeralA ++ " " ++ o.symbol ++ " " ++
        ((if negB then "-" else "") ++ numeralB)).toList := by
  cases negA <;> cases negB <;> simp [exprPieces, operandPieces, spaced, Token.text, Op.symbol]

theorem exprPieces_layout (negA negB : Bool) {numeralA numeralB : String}
    (numA : isNumeral numeralA.toList = true) (numB : isNumeral numeralB.toList = true) (o : Op) :
    Layout (exprPieces negA numeralA o negB numeralB) where
  blanks := by cases negA <;> cases negB <;> simp [exprPieces, operandPieces] <;> decide
  valid := by cases negA <;> cases negB <;> simp [exprPieces, operandPieces, Token.Valid, numA, numB]
  apart := by cases negA <;> cases negB <;> simp [exprPieces, operandPieces, Token.isNum]

theorem tokenize_operands {negA negB : Bool} {numeralA numeralB : String}
    (numA : isNumeral numeralA.toList = true) (numB : isNumeral numeralB.toList = true) (o : Op) :
    tokenize ((if negA then "-" else "") ++ numeralA ++ " " ++ o.symbol ++ " " ++
        ((if negB then "-" else "") ++ numeralB)) =
      .ok ((exprPieces negA numeralA o negB numeralB).map Prod.snd) := by
  have layout := exprPieces_layout negA negB numA numB o
  rw [tokenize, ← exprPieces_spaced]
  exact scan_spaced layout.blanks layout.valid layout.apart

theorem operandPieces_counts {numeral : String} (num : isNumeral numeral.toList = true)
    (gap : List Char) (neg : Bool) :
    numeralCount (((operandPieces gap neg numeral).map Prod.snd).map Token.text) = 1 ∧
      operatorCount (((operandPieces gap neg numeral).map Prod.snd).map Token.text) =
        if neg then 1 else 0 := by
  obtain ⟨numerals, operators⟩ := counts_of_numeral num
  cases neg
  · exact ⟨numerals, operators⟩
  · have texts : ((operandPieces gap true numeral).map Prod.snd).map Token.text =
        [Op.sub.symbol] ++ [numeral] := rfl
    rw [texts, numeralCount_append, operatorCount_append, numerals, operators]
    simp

theorem exprPieces_counts (negA negB : Bool) {numeralA numeralB : String}
    (numA : isNumeral numeralA.toList = true) (numB : isNumeral numeralB.toList = true) (o : Op) :
    numeralCount (((exprPieces negA numeralA o negB numeralB).map Prod.snd).map Token.text) = 2 ∧
      operatorCount (((exprPieces negA numeralA o negB numeralB).map Prod.snd).map Token.text) =
        1 + (if negA then 1 else 0) + (if negB then 1 else 0) := by
  obtain ⟨numeralsA, operatorsA⟩ := operandPieces_counts numA [] negA
  obtain ⟨numeralsB, operatorsB⟩ := operandPieces_counts numB [' '] negB
  have texts : ((exprPieces negA numeralA o negB numeralB).map Prod.snd).map Token.text =
      ((operandPieces [] negA numeralA).map Prod.snd).map Token.text ++ [o.symbol] ++
        ((operandPieces [' '] negB numeralB).map Prod.snd).map Token.text := by
    simp [exprPieces, Token.text]
  rw [texts, numeralCount_append, numeralCount_append, operatorCount_append, operatorCount_append,
    numeralsA, numeralsB, operatorsA, operatorsB, (counts_symbol o).1, (counts_symbol o).2]
  omega

theorem counts_filter_parens (texts : List String) :
    numeralCount (texts.filter fun x => x ≠ "(" ∧ x ≠ ")") = numeralCount texts ∧
      operatorCount (texts.filter fun x => x ≠ "(" ∧ x ≠ ")") = operatorCount texts := by
  simp only [numeralCount, operatorCount, List.countP_filter]
  constructor <;> refine List.countP_congr fun x _ => ?_ <;>
    by_cases opening : x = "(" <;> by_cases closing : x = ")" <;> simp_all <;> decide

theorem calculate_refuses_signed {negA negB : Bool} {numeralA numeralB : String}
    (numA : isNumeral numeralA.toList = true) (numB : isNumeral numeralB.toList = true)
    (signed : negA = true ∨ negB = true) (o : Op) (v : Float) :
    (calculate Session.new ((if negA then "-" else "") ++ numeralA ++ " " ++ o.symbol ++ " " ++
        ((if negB then "-" else "") ++ numeralB))).1 ≠ .ok v := by
  intro computed
  obtain ⟨ts, rpn, lexed, ordered, ran⟩ := calculate_eq_ok computed
  rw [tokenize_operands numA numB o, Except.ok.injEq] at lexed
  subst lexed
  obtain ⟨rearranged, -⟩ := toPostfix_output ordered
  have counts := (valid_of_evalPostfix_ok ran).2
  obtain ⟨numerals, operators⟩ := exprPieces_counts negA negB numA numB o
  obtain ⟨keptNumerals, keptOperators⟩ :=
    counts_filter_parens (((exprPieces negA numeralA o negB numeralB).map Prod.snd).map Token.text)
  rw [numeralCount, rearranged.countP_eq, ← numeralCount, keptNumerals, numerals, operatorCount,
    rearranged.countP_eq, ← operatorCount, keptOperators, operators] at counts
  have extra : 1 ≤ (if negA then 1 else 0) + (if negB then 1 else 0) := by
    rcases signed with rfl | rfl <;> simp
  omega

theorem calculate_refuses_odd {text : String} {c : Char} (member : c ∈ text.toList)
    (odd : ¬ TokenChar c) (v : Float) : (calculate Session.new text).1 ≠ .ok v := by
  intro computed
  obtain ⟨ts, -, lexed, -⟩ := calculate_eq_ok computed
  exact odd (tokenize_chars lexed c member)

theorem calculate_refuses_unplain {a b : Float} (o : Op)
    (other : ¬ (PlainlyWritten a ∧ PlainlyWritten b)) (v : Float) :
    (calculate Session.new (showNumber a ++ " " ++ o.symbol ++ " " ++ showNumber b)).1 ≠ .ok v := by
  rcases showNumber_shapes a with ⟨negA, numeralA, textA, numA, plainA⟩ | ⟨c, member, odd⟩
  · rcases showNumber_shapes b with ⟨negB, numeralB, textB, numB, plainB⟩ | ⟨c, member, odd⟩
    · -- both are numerals, so one of them carries a minus sign
      have signed : negA = true ∨ negB = true := by
        by_contra unsigned
        simp only [not_or, Bool.not_eq_true] at unsigned
        exact other ⟨plainA unsigned.1, plainB unsigned.2⟩
      rw [textA, textB]
      exact calculate_refuses_signed numA numB signed o v
    · exact calculate_refuses_odd (by simp [member]) odd v
  · exact calculate_refuses_odd (by simp [member]) odd v

def dialogueAnswer (expr : String) : Except ArithFault Float → String
  | .ok v => "Expresión: " ++ expr ++ "\nResultado: " ++ showNumber v ++ "\n\n"
  | .error f => "Error al evaluar: Error en operación: " ++ f.message ++ "\n\n"

theorem dialogue_computes_plain_operands {a b : Float} {o : Op} {line : String} {B : Literal}
    (read : Literal.read? (Text.trimBlanks line) = some B) (second : B.toFloat = b)
    (plainA : PlainlyWritten a) (plainB : PlainlyWritten b)
    (backA : numeralValue (showNumber a) = a) (backB : numeralValue (showNumber b) = b) :
    (Console.secondOperand Session.new a o).feed line =
      (dialogueAnswer (showNumber a ++ " " ++ o.symbol ++ " " ++ showNumber b) (o.apply a b),
        .finished) := by
  let e : Expr := .bin o (.num (showNumber a)) (.num (showNumber b))
  let ps := exprPieces false (showNumber a) o false (showNumber b)
  have numA := isNumeral_showNumber plainA
  have numB := isNumeral_showNumber plainB
  have numerals : e.WellFormed := ⟨numA, numB⟩
  have written : Written e (ps.map Prod.snd) false :=
    .bin (.num _) (.num _) (by simp [Expr.needsParens]) (by simp [Expr.needsParens])
  have text : showNumber a ++ " " ++ o.symbol ++ " " ++ showNumber b = String.ofList (spaced ps) := by
    rw [← String.toList_inj, String.toList_ofList, exprPieces_spaced]
    simp
  have value : e.value = o.apply a b := by
    simp only [e, Expr.value, backA, backB]
    rfl
  have computed :=
    calculate_written numerals written rfl (exprPieces_layout false false numA numB o).blanks
  rw [← text, value] at computed
  simp only [Console.feed, read, second]
  rw [computed]
  cases o.apply a b <;> rfl

theorem dialogue_refuses_other_operands {a b : Float} {o : Op} {line : String} {B : Literal}
    (read : Literal.read? (Text.trimBlanks line) = some B) (second : B.toFloat = b)
    (other : ¬ (PlainlyWritten a ∧ PlainlyWritten b)) :
    ∃ msg, (Console.secondOperand Session.new a o).feed line =
      ("Error al evaluar: " ++ msg ++ "\n\n", .finished) := by
  simp only [Console.feed, read, second]
  cases computed : (calculate Session.new
      (showNumber a ++ " " ++ o.symbol ++ " " ++ showNumber b)).1 with
  | ok v => exact absurd computed (calculate_refuses_unplain o other v)
  | error msg => exact ⟨msg, rfl⟩

/-- What the dialogue prints on its second operand. When both operands are written as plain
digits and a point, and their texts read back as themselves, it computes its operator on them and
prints the expression with the result or the fault of the operation. Otherwise it prints an error
and no result. -/
theorem dialogue_answers_by_operand_shape {a b : Float} {o : Op} {line : String} {B : Literal}
    (read : Literal.read? (Text.trimBlanks line) = some B) (second : B.toFloat = b) :
    (PlainlyWritten a → PlainlyWritten b → numeralValue (showNumber a) = a →
        numeralValue (showNumber b) = b →
        (Console.secondOperand Session.new a o).feed line =
          (dialogueAnswer (showNumber a ++ " " ++ o.symbol ++ " " ++ showNumber b) (o.apply a b),
            .finished)) ∧
      (¬ (PlainlyWritten a ∧ PlainlyWritten b) →
        ∃ msg, (Console.secondOperand Session.new a o).feed line =
          ("Error al evaluar: " ++ msg ++ "\n\n", .finished)) :=
  ⟨dialogue_computes_plain_operands read second, dialogue_refuses_other_operands read second⟩

/-- A tenth and two tenths read back as themselves, so the dialogue computes their sum; after
`-1` it prints an error on `2`. -/
theorem dialogue_on_tenths_and_minus_one :
    (Literal.read? (Text.trimBlanks "0.2") = some (.finite false ⟨2, -1⟩) ∧
      (Literal.finite false ⟨2, -1⟩).toFloat = 0.2 ∧ PlainlyWritten 0.1 ∧ PlainlyWritten 0.2 ∧
      numeralValue (showNumber 0.1) = 0.1 ∧ numeralValue (showNumber 0.2) = 0.2 ∧
      (Console.secondOperand Session.new 0.1 .add).feed "0.2" =
        (dialogueAnswer (showNumber 0.1 ++ " " ++ Op.add.symbol ++ " " ++ showNumber 0.2)
          (Op.add.apply 0.1 0.2), .finished)) ∧
    (Literal.read? (Text.trimBlanks "2") = some (.finite false ⟨2, 0⟩) ∧
      (Literal.finite false ⟨2, 0⟩).toFloat = 2 ∧ ¬ PlainlyWritten (-1) ∧
      ∃ msg, (Console.secondOperand Session.new (-1) .add).feed "2" =
        ("Error al evaluar: " ++ msg ++ "\n\n", .finished)) := by
  have read : Literal.read? (Text.trimBlanks "0.2") = some (.finite false ⟨2, -1⟩) := by decide +kernel
  have second : (Literal.finite false ⟨2, -1⟩).toFloat = 0.2 := by decide +kernel
  have plainA : PlainlyWritten 0.1 :=
    ⟨7205759403792794, -56, by decide +kernel, .inr (.inr ⟨by decide +kernel, by decide +kernel⟩)⟩
  have plainB : PlainlyWritten 0.2 :=
    ⟨7205759403792794, -55, by decide +kernel, .inr (.inr ⟨by decide +kernel, by decide +kernel⟩)⟩
  have backA : numeralValue (showNumber 0.1) = 0.1 := by decide +kernel
  have backB : numeralValue (showNumber 0.2) = 0.2 := by decide +kernel
  have readTwo : Literal.read? (Text.trimBlanks "2") = some (.finite false ⟨2, 0⟩) := by decide +kernel
  have secondTwo : (Literal.finite false ⟨2, 0⟩).toFloat = 2 := by decide +kernel
  -- the sign bit of `-1` is set
  have negative : ¬ PlainlyWritten (-1) := by
    rintro ⟨m, q, bits, -⟩
    have signed : Binary.ofFloat (-1) = .finite true 4503599627370496 (-52) := by decide +kernel
    rw [signed] at bits
    cases bits
  exact ⟨⟨read, second, plainA, plainB, backA, backB,
      (dialogue_answers_by_operand_shape read second).1 plainA plainB backA backB⟩,
    readTwo, secondTwo, negative,
      (dialogue_answers_by_operand_shape readTwo secondTwo).2 fun both => negative both.1⟩

/-- A negative first operand is written with a minus sign, which the expression reads as an
operator: the dialogue on `-1`, `+`, `2` reports too few operands, though `-1 + 2` is `1`. -/
theorem negative_operand_not_computed :
    Op.add.apply (-1) 2 = .ok 1 ∧
      (Console.session Console.dialogue ["-1", "+", "2"]).output =
        "Ingresa el primer número: Ingresa el operador (+ - * / ^): Ingresa el segundo número: " ++
          "Error al evaluar: Expresión inválida\n\n" :=
  ⟨rfl, by decide +kernel⟩

end Calc
end AgentLab
