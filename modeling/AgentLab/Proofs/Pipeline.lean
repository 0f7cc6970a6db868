import AgentLab.Proofs.Evaluation
import AgentLab.Proofs.Shunting
import AgentLab.Calc.Client
import AgentLab.Calc.Console
/-!
The three stages together on a fresh session. A writing of a well-formed expression, with any
blanks before its tokens, scans back to its tokens, goes into the postfix order of the expression
and evaluates through the workers to the value of the expression.

The stages do not check the infix grammar itself: a text in postfix order is computed too. What
they do check of a text they compute a value for is that its parentheses nest and that, without
them, its tokens are those of a tree of that value, in another order but with the numerals in
theirs.
-/

namespace AgentLab.Calc

/-! ## Written expressions -/

/-- Every writing of a well-formed expression, laid out with any blanks before each token, runs
through the three stages on a fresh client: its tokens come back, its postfix form is that of the
expression, and the answer is the value of the expression, or the failure of the first of its
operations that fails. -/
theorem written_expression_evaluates {e : Expr} {ts : List Token} {wrapped : Bool}
    {ps : List (List Char × Token)} (numerals : e.WellFormed) (written : Written e ts wrapped)
    (spelled : ps.map Prod.snd = ts) (blanks : ∀ p ∈ ps, ∀ c ∈ p.1, Text.isBlank c = true) :
    (Client.new.evalExpr (.text (String.ofList (spaced ps)))).1 =
      match e.value with
      | .ok v => { tokens := some (ts.map Token.text), rpn := some e.postorder, value := some v }
      | .error f =>
        { tokens := some (ts.map Token.text), rpn := some e.postorder,
          failure := some (SessionFault.eval (.operation f)).toFailure,
          stage := some .evaluate } := by
  -- a writing never puts two numerals side by side, so the blanks may all be empty
  have apart : ps.IsChain fun p q => p.2.isNum = true → q.2.isNum = true → q.1 ≠ [] := by
    have chain := written.apart
    rw [← spelled, List.isChain_map] at chain
    exact chain.imp fun p q sep first second => absurd second (by simp [sep first])
  have valid : ∀ p ∈ ps, p.2.Valid := fun p member =>
    written.valid numerals _ (spelled ▸ List.mem_map_of_mem member)
  have lexed : tokenize (String.ofList (spaced ps)) = .ok ts := by
    rw [tokenize, String.toList_ofList, scan_spaced blanks valid apart, spelled]
  have ordered := written.toPostfix_eq numerals
  obtain ⟨log, s, answer, -⟩ :=
    Session.tracks_new.evaluate_answersAs Session.ready_new [] e.postorder
  have ran := evalPostfix_postorder numerals [] []
  rw [List.append_nil] at ran
  rw [ran] at answer
  cases value : e.value with
  | ok v =>
    have run : Session.evaluate [] e.postorder Session.new = .ok v s := by
      rw [answer, value]
      rfl
    simp [Client.evalExpr, tokenizeArg, lexed, ordered, Client.attempt, Client.new, run]
  | error f =>
    have run : Session.evaluate [] e.postorder Session.new =
        .error (.eval (.operation f)) s := by
      rw [answer, value]
      rfl
    simp [Client.evalExpr, tokenizeArg, lexed, ordered, Client.attempt, Client.new, run]

theorem nested_difference_evaluates :
    (Client.new.evalExpr (.text (String.ofList (spaced
      [([], .num "1"), ([' '], .op .sub), ([' '], .openParen), ([], .num "2"),
        ([' '], .op .sub), ([' '], .num "3"), ([], .closeParen)])))).1 =
      match (Expr.bin .sub (.num "1") (.bin .sub (.num "2") (.num "3"))).value with
      | .ok v =>
        { tokens := some ["1", "-", "(", "2", "-", "3", ")"], rpn := some ["1", "2", "3", "-", "-"],
          value := some v }
      | .error f =>
        { tokens := some ["1", "-", "(", "2", "-", "3", ")"], rpn := some ["1", "2", "3", "-", "-"],
          failure := some (SessionFault.eval (.operation f)).toFailure,
          stage := some .evaluate } :=
  @written_expression_evaluates (.bin .sub (.num "1") (.bin .sub (.num "2") (.num "3")))
    [.num "1", .op .sub, .openParen, .num "2", .op .sub, .num "3", .closeParen] false
    [([], .num "1"), ([' '], .op .sub), ([' '], .openParen), ([], .num "2"),
      ([' '], .op .sub), ([' '], .num "3"), ([], .closeParen)]
    (by simp only [Expr.WellFormed]; decide)
    (.bin (.num "1") (.paren (.bin (.num "2") (.num "3") (by decide) (by decide)))
      (by decide) (by decide))
    rfl (by simpa using (by decide : [[], [' '], [' '], [], [' '], [' '], []].all
      (·.all Text.isBlank) = true))

/-! ## Texts the stages compute -/

inductive Phrase : List Token → Prop
  | num {t : String} : isNumeral t.toList = true → Phrase [.num t]
  | bin {l r : List Token} (o : Op) : Phrase l → Phrase r → Phrase (l ++ .op o :: r)
  | paren {ts : List Token} : Phrase ts → Phrase (.openParen :: ts ++ [.closeParen])

theorem Phrase.ends {ts : List Token} (phrase : Phrase ts) :
    ∃ t ∈ ts.getLast?, t.isNum = true ∨ t = .closeParen := by
  induction phrase with
  | num _ => exact ⟨_, rfl, .inl rfl⟩
  | bin o _ _ _ ihR =>
    obtain ⟨t, last, kind⟩ := ihR
    refine ⟨t, ?_, kind⟩
    simp [List.getLast?_append, List.getLast?_cons, Option.mem_def.mp last]
  | paren _ _ =>
    refine ⟨.closeParen, ?_, .inr rfl⟩
    rw [List.getLast?_append]
    simp

/-- What the three stages give on a fresh session when they compute a value: the tokens, the
postfix form, and a value of the stack machine. -/
theorem calculate_eq_ok {text : String} {v : Float}
    (computed : (calculate Session.new text).1 = .ok v) :
    ∃ ts rpn, tokenize text = .ok ts ∧ toPostfix (ts.map Token.text) = .ok rpn ∧
      evalPostfix [] rpn = .ok v := by
  unfold calculate at computed
  cases lexed : tokenize text with
  | error f => simp [lexed] at computed
  | ok ts =>
    cases ordered : toPostfix (ts.map Token.text) with
    | error f => simp [lexed, ordered] at computed
    | ok rpn =>
      obtain ⟨log, s, answer, -⟩ := Session.tracks_new.evaluate_answersAs Session.ready_new [] rpn
      refine ⟨ts, rpn, rfl, ordered, ?_⟩
      cases ran : evalPostfix [] rpn with
      | error f => simp [lexed, ordered, answer, ran, Session.ending, Except.mapError] at computed
      | ok w =>
        simp [lexed, ordered, answer, ran, Session.ending, Except.mapError] at computed
        rw [computed]

theorem operator_last_computes : ∃ v, (calculate Session.new "2 3 +").1 = .ok v := by
  have returns : (calculate Session.new "2 3 +").1.toOption.isSome = true := by decide +kernel
  cases computed : (calculate Session.new "2 3 +").1 with
  | error f =>
    rw [computed] at returns
    cases returns
  | ok v => exact ⟨v, rfl⟩

theorem calculate_accepts_operator_last :
    ¬ ∀ (text : String) (v : Float), (calculate Session.new text).1 = .ok v →
      ∃ ts, tokenize text = .ok ts ∧ Phrase ts := by
  intro grammatical
  have lexed : tokenize "2 3 +" = .ok [.num "2", .num "3", .op .add] := by decide +kernel
  obtain ⟨v, computed⟩ := operator_last_computes
  obtain ⟨ts, scanned, phrase⟩ := grammatical "2 3 +" v computed
  rw [lexed] at scanned
  cases scanned
  -- the tokens end with an operator, and no phrase does
  obtain ⟨t, last, kind⟩ := phrase.ends
  simp only [List.getLast?_cons_cons, List.getLast?_singleton, Option.mem_def,
    Option.some.injEq] at last
  subst last
  simp [Token.isNum] at kind

/-- Of a text the three stages compute a value for on a fresh session, they have checked only
this: its parentheses nest, and without them its tokens are the postfix tokens of a tree of
numerals and operators, in some order, with the numerals in theirs; the postfix form is that of
the tree and the value is the value of the tree. -/
theorem computed_text_shape {text : String} {v : Float}
    (computed : (calculate Session.new text).1 = .ok v) :
    ∃ (ts : List Token) (e : Expr), tokenize text = .ok ts ∧ nested 0 ts = true ∧
      e.WellFormed ∧ toPostfix (ts.map Token.text) = .ok e.postorder ∧ e.value = .ok v ∧
      (ts.filter (!·.isParen)).Perm e.rpn ∧ ts.filter Token.isNum = e.rpn.filter Token.isNum := by
  obtain ⟨ts, rpn, lexed, ordered, ran⟩ := calculate_eq_ok computed
  obtain ⟨result, shunted, texts⟩ := toPostfix_eq_ok ordered
  obtain ⟨e, numerals, value, order⟩ := @evalPostfix_tree [] [] rpn v (by simp) rfl ran
  simp only [List.reverse_nil, List.flatMap_nil, List.nil_append] at order
  have valid : ∀ t ∈ ts, t.Valid := scan_valid lexed
  have read := filterMap_ofText?_text valid
  have empty : Pending [] := fun _ member => absurd member List.not_mem_nil
  have nests := shunt_nested shunted
  have kept := shunt_perm empty shunted
  have numeralsKept := shunt_numerals empty shunted
  rw [read] at nests kept numeralsKept
  simp only [List.nil_append, List.filter_nil] at kept numeralsKept
  -- the output of the shunting-yard is the tree's postfix tokens, both being well made
  have same : result = e.rpn := by
    refine map_text_inj (fun t member => ?_) (Expr.rpn_valid numerals) ?_
    · exact valid t (List.mem_of_mem_filter (kept.subset member))
    · rw [texts, Expr.rpn_text, order]
  subst same
  exact ⟨ts, e, lexed, nests, numerals, order ▸ ordered, value, kept.symm, numeralsKept.symm⟩

theorem operator_last_text_shape :
    ∃ v, (calculate Session.new "2 3 +").1 = .ok v ∧
      ∃ (ts : List Token) (e : Expr), tokenize "2 3 +" = .ok ts ∧ nested 0 ts = true ∧
        e.WellFormed ∧ toPostfix (ts.map Token.text) = .ok e.postorder ∧ e.value = .ok v ∧
        (ts.filter (!·.isParen)).Perm e.rpn ∧
        ts.filter Token.isNum = e.rpn.filter Token.isNum := by
  obtain ⟨v, computed⟩ := operator_last_computes
  exact ⟨v, computed, computed_text_shape computed⟩

end AgentLab.Calc
