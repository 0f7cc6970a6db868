import AgentLab.Proofs.Evaluation
/-!
Postfix words and the faults of the stack machine. A valid postfix word holds only numerals and
operators, more numerals than operators in each non-empty prefix, and one numeral more than
operators in all. Along a prefix in which no operator comes short, the machine's stack holds as
many values as the prefix has numerals more than operators, unless an operation fails first. So
evaluation on a fresh session refuses a word as malformed exactly when the word is not valid and
no operation before its first defect fails, and the fault is the one of that first defect.
-/

namespace AgentLab.Calc

def isPostfixText (text : String) : Bool :=
  isNumeral text.toList || (Op.ofSymbol? text).isSome

def numeralCount (texts : List String) : Nat :=
  texts.countP fun text => isNumeral text.toList

def operatorCount (texts : List String) : Nat :=
  texts.countP fun text => (Op.ofSymbol? text).isSome

/-- No operator of the texts comes short when `height` values are on the stack before them: every
text is of postfix, and every non-empty prefix holds fewer operators than `height` plus its
numerals. -/
structure SoundFrom (height : Nat) (texts : List String) : Prop where
  known : ∀ text ∈ texts, isPostfixText text = true
  prefixes : ∀ pre, pre <+: texts → pre ≠ [] → operatorCount pre < height + numeralCount pre

/-- A valid postfix word: no operator comes short from an empty stack, and there is one numeral
more than operators. -/
def ValidPostfix (texts : List String) : Prop :=
  SoundFrom 0 texts ∧ numeralCount texts = operatorCount texts + 1

/-- The first defect of `texts` comes right after `pre`, with fault `f`: `pre` is sound and the
next text is no text of postfix, or it is one that leaves no more numerals than operators; with no
such text, `pre` is the whole word and its counts do not differ by one. -/
def FirstDefect (texts pre : List String) (f : EvalFault) : Prop :=
  (∃ text post, texts = pre ++ text :: post ∧ SoundFrom 0 pre ∧
    (isPostfixText text = false ∧ f = .unknown text ∨
      isPostfixText text = true ∧ numeralCount (pre ++ [text]) ≤ operatorCount (pre ++ [text]) ∧
        f = .tooFew)) ∨
    (pre = texts ∧ SoundFrom 0 texts ∧ numeralCount texts ≠ operatorCount texts + 1 ∧
      f = .leftover)

def EvalFault.ofWord : EvalFault → Bool
  | .operation _ => false
  | _ => true

def pushText (stack : List Float) (text : String) : Except EvalFault (List Float) :=
  match Token.ofText? text with
  | some (.num t) => .ok (numeralValue t :: stack)
  | some (.op o) =>
    match stack with
    | b :: a :: below =>
      match o.apply a b with
      | .ok v => .ok (v :: below)
      | .error f => .error (.operation f)
    | _ => .error .tooFew
  | _ => .error (.unknown text)

def stackAfter (stack : List Float) (texts : List String) : Except EvalFault (List Float) :=
  texts.foldlM pushText stack

/-! ## Texts and counts -/

theorem isNumeral_symbol (o : Op) : isNumeral o.symbol.toList = false := by
  cases o <;> decide

theorem isPostfixText_cases {text : String} (known : isPostfixText text = true) :
    isNumeral text.toList = true ∨ ∃ o : Op, text = o.symbol := by
  simp only [isPostfixText, Bool.or_eq_true, Option.isSome_iff_exists] at known
  rcases known with numeral | ⟨o, read⟩
  · exact .inl numeral
  · exact .inr ⟨o, (Token.ofSymbol?_eq_some read).symm⟩

@[simp] theorem numeralCount_nil : numeralCount [] = 0 := rfl

@[simp] theorem operatorCount_nil : operatorCount [] = 0 := rfl

@[simp] theorem numeralCount_append (xs ys : List String) :
    numeralCount (xs ++ ys) = numeralCount xs + numeralCount ys :=
  List.countP_append

@[simp] theorem operatorCount_append (xs ys : List String) :
    operatorCount (xs ++ ys) = operatorCount xs + operatorCount ys :=
  List.countP_append

theorem numeralCount_cons (text : String) (rest : List String) :
    numeralCount (text :: rest) = numeralCount [text] + numeralCount rest :=
  numeralCount_append [text] rest

theorem operatorCount_cons (text : String) (rest : List String) :
    operatorCount (text :: rest) = operatorCount [text] + operatorCount rest :=
  operatorCount_append [text] rest

theorem counts_of_numeral {text : String} (numeral : isNumeral text.toList = true) :
    numeralCount [text] = 1 ∧ operatorCount [text] = 0 := by
  have noSymbol : Op.ofSymbol? text = none := by
    cases read : Op.ofSymbol? text with
    | none => rfl
    | some o =>
      rw [← Token.ofSymbol?_eq_some read, isNumeral_symbol] at numeral
      cases numeral
  simp [numeralCount, operatorCount, numeral, noSymbol]

@[simp] theorem counts_symbol (o : Op) :
    numeralCount [o.symbol] = 0 ∧ operatorCount [o.symbol] = 1 := by
  simp [numeralCount, operatorCount, isNumeral_symbol, Op.ofSymbol?_symbol]

/-! ## Soundness of prefixes -/

variable {height : Nat} {text : String} {pre rest texts : List String}

theorem soundFrom_nil (height : Nat) : SoundFrom height [] :=
  ⟨by simp, fun pre inside nonempty => absurd (List.prefix_nil.mp inside) nonempty⟩

theorem soundFrom_cons :
    SoundFrom height (text :: rest) ↔ isPostfixText text = true ∧
      operatorCount [text] < height + numeralCount [text] ∧
      SoundFrom (height + numeralCount [text] - operatorCount [text]) rest := by
  constructor
  · intro sound
    have first := sound.prefixes [text] (List.cons_prefix_cons.mpr ⟨rfl, List.nil_prefix⟩)
      (List.cons_ne_nil _ _)
    refine ⟨sound.known text List.mem_cons_self, first, fun t member => ?_, fun p inside nonempty => ?_⟩
    · exact sound.known t (List.mem_cons_of_mem text member)
    · have longer := sound.prefixes (text :: p) (List.cons_prefix_cons.mpr ⟨rfl, inside⟩)
        (List.cons_ne_nil _ _)
      rw [numeralCount_cons, operatorCount_cons] at longer
      omega
  · rintro ⟨known, first, later⟩
    refine ⟨fun t member => ?_, fun p inside nonempty => ?_⟩
    · rcases List.mem_cons.mp member with rfl | member
      · exact known
      · exact later.known t member
    · rcases List.prefix_cons_iff.mp inside with rfl | ⟨q, rfl, within⟩
      · exact absurd rfl nonempty
      · rw [numeralCount_cons, operatorCount_cons]
        by_cases empty : q = []
        · subst empty
          simpa using first
        · have tail := later.prefixes q within empty
          omega

theorem soundFrom_concat :
    SoundFrom height (pre ++ [text]) ↔ SoundFrom height pre ∧ isPostfixText text = true ∧
      operatorCount (pre ++ [text]) < height + numeralCount (pre ++ [text]) := by
  constructor
  · intro sound
    refine ⟨⟨fun t member => sound.known t (List.mem_append_left _ member),
      fun p inside nonempty => sound.prefixes p (inside.trans (List.prefix_append _ _)) nonempty⟩,
      sound.known text (by simp), sound.prefixes _ (List.prefix_refl _) (by simp)⟩
  · rintro ⟨sound, known, whole⟩
    refine ⟨fun t member => ?_, fun p inside nonempty => ?_⟩
    · rcases List.mem_append.mp member with member | last
      · exact sound.known t member
      · rw [List.mem_singleton.mp last]
        exact known
    · rcases List.prefix_concat_iff.mp inside with rfl | inside
      · exact whole
      · exact sound.prefixes p inside nonempty

theorem SoundFrom.operators_le (sound : SoundFrom 0 texts) :
    operatorCount texts ≤ numeralCount texts := by
  cases texts with
  | nil => simp
  | cons text rest =>
    have whole := sound.prefixes _ (List.prefix_refl _) (List.cons_ne_nil _ _)
    omega

/-! ## The stack machine along a word -/

variable {stack : List Float}

theorem pushText_numeral (numeral : isNumeral text.toList = true) :
    pushText stack text = .ok (numeralValue text :: stack) := by
  simp [pushText, Token.ofText?_num numeral]

theorem pushText_applied {o : Op} {a b v : Float} {below : List Float}
    (applied : o.apply a b = .ok v) : pushText (b :: a :: below) o.symbol = .ok (v :: below) := by
  simp only [pushText, Token.ofText?_symbol, applied]

theorem pushText_refused {o : Op} {a b : Float} {below : List Float} {f : ArithFault}
    (refused : o.apply a b = .error f) :
    pushText (b :: a :: below) o.symbol = .error (.operation f) := by
  simp only [pushText, Token.ofText?_symbol, refused]

theorem pushText_short (o : Op) (short : stack.length < 2) :
    pushText stack o.symbol = .error .tooFew := by
  rcases stack with _ | ⟨b, _ | ⟨a, below⟩⟩
  · simp only [pushText, Token.ofText?_symbol]
  · simp only [pushText, Token.ofText?_symbol]
  · exact absurd short (by simp)

theorem pushText_unknown (unknown : isPostfixText text = false) :
    pushText stack text = .error (.unknown text) := by
  simp only [isPostfixText, Bool.or_eq_false_iff, Option.isSome_eq_false_iff,
    Option.isNone_iff_eq_none] at unknown
  obtain ⟨notNumeral, noSymbol⟩ := unknown
  unfold pushText Token.ofText?
  simp only [notNumeral, noSymbol, Bool.false_eq_true, if_false]
  split_ifs <;> rfl

theorem evalPostfix_cons (stack : List Float) (text : String) (rest : List String) :
    evalPostfix stack (text :: rest) = pushText stack text >>= fun st => evalPostfix st rest := by
  conv_lhs => unfold evalPostfix
  rw [pushText]
  cases Token.ofText? text with
  | none => rfl
  | some t =>
    cases t with
    | num t => rfl
    | op o =>
      rcases stack with _ | ⟨b, _ | ⟨a, below⟩⟩
      · rfl
      · rfl
      · dsimp only
        cases o.apply a b <;> rfl
    | openParen => rfl
    | closeParen => rfl

theorem evalPostfix_append (stack : List Float) (pre post : List String) :
    evalPostfix stack (pre ++ post) = stackAfter stack pre >>= fun st => evalPostfix st post := by
  induction pre generalizing stack with
  | nil => rfl
  | cons text pre ih =>
    rw [List.cons_append, evalPostfix_cons, stackAfter, List.foldlM_cons, bind_assoc]
    simp only [ih, stackAfter]

theorem stackAfter_of_sound (stack : List Float) (sound : SoundFrom stack.length texts) :
    (∃ st, stackAfter stack texts = .ok st ∧
      st.length + operatorCount texts = stack.length + numeralCount texts) ∨
    ∃ f, stackAfter stack texts = .error (.operation f) := by
  induction texts generalizing stack with
  | nil => exact .inl ⟨stack, rfl, by simp⟩
  | cons text rest ih =>
    obtain ⟨known, first, later⟩ := soundFrom_cons.mp sound
    rw [stackAfter, List.foldlM_cons, numeralCount_cons, operatorCount_cons]
    rcases isPostfixText_cases known with numeral | ⟨o, rfl⟩
    · obtain ⟨numerals, operators⟩ := counts_of_numeral numeral
      rw [numerals, operators] at later ⊢
      rw [pushText_numeral numeral]
      rcases ih (numeralValue text :: stack) later with ⟨st, run, size⟩ | ⟨f, failed⟩
      · exact .inl ⟨st, run, by simp at size ⊢; omega⟩
      · exact .inr ⟨f, failed⟩
    · obtain ⟨numerals, operators⟩ := counts_symbol o
      rw [numerals, operators] at first later ⊢
      rcases stack with _ | ⟨b, _ | ⟨a, below⟩⟩
      · simp at first
      · simp at first
      cases applied : o.apply a b with
      | error f => exact .inr ⟨f, by rw [pushText_refused applied]; rfl⟩
      | ok v =>
        rw [pushText_applied applied]
        rcases ih (v :: below) (by simpa using later) with ⟨st, run, size⟩ | ⟨f, failed⟩
        · exact .inl ⟨st, run, by simp at size ⊢; omega⟩
        · exact .inr ⟨f, failed⟩

theorem stackAfter_length {st : List Float} (sound : SoundFrom 0 texts)
    (ran : stackAfter [] texts = .ok st) : st.length + operatorCount texts = numeralCount texts := by
  rcases stackAfter_of_sound [] sound with ⟨st', ran', size⟩ | ⟨g, failed⟩
  · rw [ran, Except.ok.injEq] at ran'
    subst ran'
    simpa using size
  · rw [ran] at failed
    cases failed

/-! ## Defects -/

/-- A word that is not valid has a first defect: the texts are taken from the front while the
prefix stays sound. -/
theorem exists_firstDefect (invalid : ¬ ValidPostfix texts) : ∃ pre f, FirstDefect texts pre f := by
  suffices grow : ∀ post pre, SoundFrom 0 pre → ¬ ValidPostfix (pre ++ post) →
      ∃ pre' f, FirstDefect (pre ++ post) pre' f by
    simpa using grow texts [] (soundFrom_nil 0) (by simpa using invalid)
  intro post
  induction post with
  | nil =>
    intro pre sound invalid
    rw [List.append_nil] at invalid ⊢
    exact ⟨pre, .leftover, .inr ⟨rfl, sound, fun counts => invalid ⟨sound, counts⟩, rfl⟩⟩
  | cons text post ih =>
    intro pre sound invalid
    by_cases longer : SoundFrom 0 (pre ++ [text])
    · rw [← List.singleton_append, ← List.append_assoc] at invalid ⊢
      exact ih _ longer invalid
    · cases known : isPostfixText text
      · exact ⟨pre, .unknown text, .inl ⟨text, post, rfl, sound, .inl ⟨known, rfl⟩⟩⟩
      · simp only [soundFrom_concat, not_and, not_lt, Nat.zero_add] at longer
        exact ⟨pre, .tooFew, .inl ⟨text, post, rfl, sound, .inr ⟨known, longer sound known, rfl⟩⟩⟩

theorem FirstDefect.sound {pre : List String} {f : EvalFault} (defect : FirstDefect texts pre f) :
    SoundFrom 0 pre := by
  rcases defect with ⟨-, -, -, sound, -⟩ | ⟨rfl, sound, -⟩ <;> exact sound

theorem evalPostfix_firstDefect {pre : List String} {f : EvalFault} {st : List Float}
    (defect : FirstDefect texts pre f) (ran : stackAfter [] pre = .ok st) :
    evalPostfix [] texts = .error f := by
  rcases defect with ⟨text, post, rfl, sound, fault⟩ | ⟨rfl, sound, counts, rfl⟩
  · rw [evalPostfix_append, ran]
    have size := stackAfter_length sound ran
    rcases fault with ⟨unknown, rfl⟩ | ⟨known, short, rfl⟩
    · show evalPostfix st (text :: post) = _
      rw [evalPostfix_cons, pushText_unknown unknown]
      rfl
    · rcases isPostfixText_cases known with numeral | ⟨o, rfl⟩
      · -- a numeral cannot come short after a sound prefix
        have balanced := sound.operators_le
        rw [numeralCount_append, operatorCount_append, (counts_of_numeral numeral).1,
          (counts_of_numeral numeral).2] at short
        omega
      · obtain ⟨numerals, operators⟩ := counts_symbol o
        rw [numeralCount_append, operatorCount_append, numerals, operators] at short
        show evalPostfix st (o.symbol :: post) = _
        rw [evalPostfix_cons, pushText_short o (by omega)]
        rfl
  · rw [← List.append_nil pre, evalPostfix_append, ran]
    have size := stackAfter_length sound ran
    show evalPostfix st [] = _
    rcases st with _ | ⟨v, _ | ⟨w, below⟩⟩
    · rfl
    · simp at size
      omega
    · rfl

theorem evalPostfix_failed_before {pre : List String} {f g : EvalFault}
    (defect : FirstDefect texts pre f) (failed : stackAfter [] pre = .error g) :
    evalPostfix [] texts = .error g := by
  rcases defect with ⟨text, post, rfl, -⟩ | ⟨rfl, -⟩
  · rw [evalPostfix_append, failed]
    rfl
  · rw [← List.append_nil pre, evalPostfix_append, failed]
    rfl

theorem evalPostfix_of_valid (valid : ValidPostfix texts) :
    (∃ v, evalPostfix [] texts = .ok v) ∨ ∃ f, evalPostfix [] texts = .error (.operation f) := by
  rw [← List.append_nil texts, evalPostfix_append]
  rcases stackAfter_of_sound [] valid.1 with ⟨st, ran, -⟩ | ⟨f, failed⟩
  · rw [ran]
    have one : st.length = 1 := by
      have size := stackAfter_length valid.1 ran
      have counts := valid.2
      omega
    obtain ⟨v, rfl⟩ := List.length_eq_one_iff.mp one
    exact .inl ⟨v, rfl⟩
  · rw [failed]
    exact .inr ⟨f, rfl⟩

theorem valid_of_evalPostfix_ok {v : Float}
    (ran : evalPostfix [] texts = .ok v) : ValidPostfix texts := by
  by_contra invalid
  obtain ⟨pre, f, defect⟩ := exists_firstDefect invalid
  rcases stackAfter_of_sound [] defect.sound with ⟨st, before, -⟩ | ⟨g, failed⟩
  · rw [evalPostfix_firstDefect defect before] at ran
    cases ran
  · rw [evalPostfix_failed_before defect failed] at ran
    cases ran

theorem not_valid_of_word_fault {f : EvalFault} (word : f.ofWord = true)
    (failed : evalPostfix [] texts = .error f) : ¬ ValidPostfix texts := by
  intro valid
  rcases evalPostfix_of_valid valid with ⟨v, ran⟩ | ⟨g, ran⟩
  · rw [ran] at failed
    cases failed
  · rw [ran, Except.error.injEq] at failed
    subst failed
    cases word

theorem ran_before_defect {pre : List String} {f g : EvalFault} (word : f.ofWord = true)
    (failed : evalPostfix [] texts = .error f) (defect : FirstDefect texts pre g) :
    ∃ st, stackAfter [] pre = .ok st := by
  rcases stackAfter_of_sound [] defect.sound with ⟨st, ran, -⟩ | ⟨h, stopped⟩
  · exact ⟨st, ran⟩
  · rw [evalPostfix_failed_before defect stopped, Except.error.injEq] at failed
    subst failed
    cases word

theorem FirstDefect.leftover {pre : List String} (defect : FirstDefect texts pre .leftover) :
    SoundFrom 0 texts ∧ numeralCount texts ≠ operatorCount texts + 1 := by
  rcases defect with ⟨-, -, -, -, ⟨-, ⟨⟩⟩ | ⟨-, -, ⟨⟩⟩⟩ | ⟨-, sound, counts, -⟩
  exact ⟨sound, counts⟩

/-! ## Evaluation on a fresh session -/

theorem Session.ending_eq_error {x : Except EvalFault Float} {s s' : Session} {f : EvalFault} :
    Session.ending (x.mapError .eval) s' = .error (.eval f) s ↔ x = .error f ∧ s = s' := by
  cases x with
  | error g => simp [Session.ending, Except.mapError, eq_comm]
  | ok v => simp [Session.ending, Except.mapError]

/-- Evaluation through the workers on a fresh session refuses a word as malformed (an operator
that finds fewer than two values, a text that is neither a numeral nor an operator, or other than
one value left at the end) exactly when the word is not a valid postfix word and no operation
before its first defect fails. The fault is then the one of the first defect, and a leftover comes
only from a word without a defective text whose counts do not differ by one. -/
theorem evaluate_refuses_invalid_words (rpn : List String) :
    ((∃ f s, f.ofWord = true ∧ Session.evaluate [] rpn Session.new = .error (.eval f) s) ↔
        ¬ ValidPostfix rpn ∧ ∀ pre f, FirstDefect rpn pre f → ∃ st, stackAfter [] pre = .ok st) ∧
      (∀ pre f st, FirstDefect rpn pre f → stackAfter [] pre = .ok st →
        ∃ s, Session.evaluate [] rpn Session.new = .error (.eval f) s) ∧
      (∀ s, Session.evaluate [] rpn Session.new = .error (.eval .leftover) s →
        SoundFrom 0 rpn ∧ numeralCount rpn ≠ operatorCount rpn + 1) := by
  obtain ⟨log, s', answer, -⟩ := Session.tracks_new.evaluate_answersAs Session.ready_new [] rpn
  have refused : ∀ f, (∃ s, Session.evaluate [] rpn Session.new = .error (.eval f) s) ↔
      evalPostfix [] rpn = .error f := by
    intro f
    simp only [answer, Session.ending_eq_error, exists_and_left, exists_eq, and_true]
  refine ⟨⟨?_, ?_⟩, ?_, ?_⟩
  · rintro ⟨f, s, word, failed⟩
    have machine := (refused f).mp ⟨s, failed⟩
    exact ⟨not_valid_of_word_fault word machine,
      fun pre g defect => ran_before_defect word machine defect⟩
  · rintro ⟨notValid, runs⟩
    obtain ⟨pre, f, defect⟩ := exists_firstDefect notValid
    obtain ⟨st, ran⟩ := runs pre f defect
    obtain ⟨s, failed⟩ := (refused f).mpr (evalPostfix_firstDefect defect ran)
    refine ⟨f, s, ?_, failed⟩
    rcases defect with ⟨text, post, -, -, ⟨-, rfl⟩ | ⟨-, -, rfl⟩⟩ | ⟨-, -, -, rfl⟩ <;> rfl
  · intro pre f st defect ran
    exact (refused f).mpr (evalPostfix_firstDefect defect ran)
  · intro s failed
    have machine := (refused .leftover).mp ⟨s, failed⟩
    obtain ⟨pre, f, defect⟩ := exists_firstDefect (not_valid_of_word_fault rfl machine)
    obtain ⟨st, ran⟩ := ran_before_defect rfl machine defect
    rw [evalPostfix_firstDefect defect ran, Except.error.injEq] at machine
    subst machine
    exact defect.leftover

end AgentLab.Calc
