import AgentLab.Proofs.Shunting
/-!
The order of the shunting-yard's operator stack. The loop of `shunt` takes one token text per
pass (`shuntStep`). After any number of passes its stack holds operators and open parentheses
only, and within a run of operators between open parentheses (or above the highest, or below the
lowest) the operators bind strictly tighter the higher they stand, except that powers may repeat
on top of a run. Popping, before a push, every operator that binds at least as tight (only
strictly tighter when the pushed one groups to the right) is what keeps that order.
-/

namespace AgentLab.Calc

/-- One pass of the shunting-yard's loop: the output and the stack after one more token text. -/
def shuntStep (state : List Token × List Token) (text : String) :
    Except SyntaxFault (List Token × List Token) :=
  match Token.ofText? text with
  | some (.num t) => .ok (state.1 ++ [.num t], state.2)
  | some (.op o) =>
    .ok (state.1 ++ state.2.takeWhile (yieldsTo o), .op o :: state.2.dropWhile (yieldsTo o))
  | some .openParen => .ok (state.1, .openParen :: state.2)
  | some .closeParen =>
    match state.2.dropWhile (· != .openParen) with
    | .openParen :: below => .ok (state.1 ++ state.2.takeWhile (· != .openParen), below)
    | _ => .error .unbalanced
  | none => .error (.unknown text)

theorem shunt_cons (out stack : List Token) (text : String) (rest : List String) :
    shunt out stack (text :: rest) = shuntStep (out, stack) text >>= fun s => shunt s.1 s.2 rest := by
  rw [shunt]
  unfold shuntStep
  dsimp only
  cases Token.ofText? text with
  | none => rfl
  | some t =>
    cases t with
    | closeParen =>
      -- both sides wait on the same search for the open parenthesis
      cases stack.dropWhile (· != .openParen) with
      | nil => rfl
      | cons x below => cases x <;> rfl
    | _ => rfl

theorem shunt_append (done rest : List String) (out stack : List Token) :
    shunt out stack (done ++ rest) =
      done.foldlM shuntStep (out, stack) >>= fun s => shunt s.1 s.2 rest := by
  induction done generalizing out stack with
  | nil => rfl
  | cons text done ih =>
    rw [List.cons_append, shunt_cons, List.foldlM_cons]
    cases shuntStep (out, stack) text with
    | error f => rfl
    | ok s => exact ih s.1 s.2

/-! ## Runs of operators -/

/-- Two adjacent entries of the stack, `upper` right above `lower`, stand in order: two operators
when `upper` binds strictly tighter or both are powers; an open parenthesis next to anything. -/
def InOrder : Token → Token → Prop
  | .op upper, .op lower => lower.precedence < upper.precedence ∨ lower = .pow ∧ upper = .pow
  | _, _ => True

/-- A run of operators, read from the top of the stack down: powers repeated on top of operators
that bind less and less tightly downwards. -/
def OrderedRun (ops : List Op) : Prop :=
  ∃ k strict, ops = List.replicate k .pow ++ strict ∧
    strict.Pairwise fun upper lower => lower.precedence < upper.precedence

theorem Op.precedence_lt_of_ne {o : Op} (other : o ≠ .pow) : o.precedence < 4 := by
  cases o with
  | pow => exact absurd rfl other
  | _ => decide

theorem orderedRun_of_chain {ops : List Op}
    (chain : (ops.map Token.op).IsChain InOrder) : OrderedRun ops := by
  induction ops with
  | nil => exact ⟨0, [], rfl, .nil⟩
  | cons o ops ih =>
    rw [List.map_cons, List.isChain_cons] at chain
    obtain ⟨k, strict, split, pairwise⟩ := ih chain.2
    by_cases power : o = .pow
    · subst power
      exact ⟨k + 1, strict, by rw [split, List.replicate_succ, List.cons_append], pairwise⟩
    · -- the operator right below is no power, so the run below has none on top
      have above : ∀ p ∈ ops.head?, p.precedence < o.precedence := by
        intro p first
        have order := chain.1 (.op p) (by simpa using first)
        simp only [InOrder] at order
        exact order.resolve_right fun both => power both.2
      have tight := Op.precedence_lt_of_ne power
      cases k with
      | succ k =>
        have top := above .pow (by simp [split, List.replicate_succ])
        rw [show Op.pow.precedence = 4 from rfl] at top
        omega
      | zero =>
        rw [List.replicate_zero, List.nil_append] at split
        subst split
        refine ⟨0, o :: ops, rfl, List.pairwise_cons.mpr ⟨?_, pairwise⟩⟩
        intro p member
        cases ops with
        | nil => cases member
        | cons q rest =>
          have first := above q rfl
          rcases List.mem_cons.mp member with rfl | lower
          · exact first
          · exact (List.rel_of_pairwise_cons pairwise lower).trans first

/-! ## The stack -/

/-- The shape of the shunting-yard's stack: operators and open parentheses, each two adjacent
ones in order. -/
structure OperatorStack (stack : List Token) : Prop where
  pending : Pending stack
  ordered : stack.IsChain InOrder

section OperatorStack

variable {stack : List Token}

theorem operatorStack_nil : OperatorStack [] :=
  ⟨fun _ member => (List.not_mem_nil member).elim, List.IsChain.nil⟩

theorem OperatorStack.suffix {below : List Token} (shape : OperatorStack stack)
    (suffix : below <:+ stack) : OperatorStack below :=
  ⟨fun x member => shape.pending x (suffix.subset member), shape.ordered.suffix suffix⟩

theorem inOrder_of_stays {o : Op} {x : Token} (stays : yieldsTo o x = false) :
    InOrder (.op o) x := by
  cases x with
  | op p =>
    simp only [InOrder]
    by_cases power : o = .pow
    · -- a power pops nothing: below it is a looser operator or another power
      subst power
      by_cases same : p = .pow
      · exact .inr ⟨same, rfl⟩
      · exact .inl (Op.precedence_lt_of_ne same)
    · -- any other operator stays only above a looser one
      have looser : o.precedence ≠ 4 := (Op.precedence_lt_of_ne power).ne
      simp only [yieldsTo, Op.rightAssoc_eq, looser, decide_false, Bool.false_eq_true, if_false,
        decide_eq_false_iff_not, Nat.not_le] at stays
      exact .inl stays
  | _ => trivial

theorem OperatorStack.push_op (shape : OperatorStack stack) (o : Op) :
    OperatorStack (.op o :: stack.dropWhile (yieldsTo o)) := by
  have below := shape.suffix (List.dropWhile_suffix (yieldsTo o))
  refine ⟨below.pending.push rfl (by simp), List.isChain_cons.mpr ⟨?_, below.ordered⟩⟩
  intro x first
  have stays := List.head?_dropWhile_not (yieldsTo o) stack
  rw [Option.mem_def.mp first] at stays
  exact inOrder_of_stays stays

theorem OperatorStack.push_open (shape : OperatorStack stack) :
    OperatorStack (.openParen :: stack) :=
  ⟨shape.pending.push rfl (by simp), List.isChain_cons.mpr ⟨fun _ _ => trivial, shape.ordered⟩⟩

theorem OperatorStack.step {state next : List Token × List Token} {text : String}
    (shape : OperatorStack state.2) (passed : shuntStep state text = .ok next) :
    OperatorStack next.2 := by
  unfold shuntStep at passed
  split at passed
  · cases passed
    exact shape
  · cases passed
    exact shape.push_op _
  · cases passed
    exact shape.push_open
  · split at passed
    · rename_i below opened
      cases passed
      have suffix := List.dropWhile_suffix (· != Token.openParen) (l := state.2)
      rw [opened] at suffix
      exact shape.suffix ((List.suffix_cons _ _).trans suffix)
    · cases passed
  · cases passed

theorem OperatorStack.foldlM {state next : List Token × List Token} {texts : List String}
    (shape : OperatorStack state.2) (ran : texts.foldlM shuntStep state = .ok next) :
    OperatorStack next.2 := by
  induction texts generalizing state with
  | nil =>
    cases ran
    exact shape
  | cons text texts ih =>
    rw [List.foldlM_cons] at ran
    cases passed : shuntStep state text with
    | error f =>
      rw [passed] at ran
      cases ran
    | ok mid =>
      rw [passed] at ran
      exact ih (shape.step passed) ran

theorem OperatorStack.kinds (shape : OperatorStack stack) :
    ∀ x ∈ stack, (∃ o, x = .op o) ∨ x = .openParen := by
  intro x member
  obtain ⟨kind, notClose⟩ := shape.pending x member
  cases x with
  | num _ => cases kind
  | op o => exact .inl ⟨o, rfl⟩
  | openParen => exact .inr rfl
  | closeParen => exact absurd rfl notClose

theorem OperatorStack.run {above below : List Token} {ops : List Op} (shape : OperatorStack stack)
    (split : stack = above ++ ops.map .op ++ below) : OrderedRun ops := by
  have chain := shape.ordered
  rw [split] at chain
  exact orderedRun_of_chain chain.left_of_append.right_of_append

end OperatorStack

/-- At every pass of the shunting-yard's loop over any token texts, the `k`-th included, the run
goes on from the state the first `k` texts lead to, and the stack there holds only operators and
open parentheses, every run of operators on it ordered: strictly tighter upwards, with powers
only repeating on top. -/
theorem shunt_stack_ordered (texts : List String) (k : Nat) {out stack : List Token}
    (reached : (texts.take k).foldlM shuntStep ([], []) = .ok (out, stack)) :
    shunt [] [] texts = shunt out stack (texts.drop k) ∧
      (∀ x ∈ stack, (∃ o, x = .op o) ∨ x = .openParen) ∧
      ∀ above ops below, stack = above ++ ops.map .op ++ below → OrderedRun ops := by
  have shape : OperatorStack stack := OperatorStack.foldlM operatorStack_nil reached
  refine ⟨?_, shape.kinds, fun above ops below split => shape.run split⟩
  calc shunt [] [] texts = shunt [] [] (texts.take k ++ texts.drop k) := by
        rw [List.take_append_drop]
    _ = shunt out stack (texts.drop k) := by
        rw [shunt_append, reached]
        rfl

/-- Ten passes into `2 * (1 + 3 ^ 4 ^ 5)`: two powers on top of the sum inside the parenthesis,
the product below it. -/
theorem powers_repeat_above_sum :
    (["2", "*", "(", "1", "+", "3", "^", "4", "^", "5", ")"].take 10).foldlM shuntStep ([], []) =
        .ok ([.num "2", .num "1", .num "3", .num "4", .num "5"],
          [.op .pow, .op .pow, .op .add, .openParen, .op .mul]) ∧
      shunt [] [] ["2", "*", "(", "1", "+", "3", "^", "4", "^", "5", ")"] =
        shunt [.num "2", .num "1", .num "3", .num "4", .num "5"]
          [.op .pow, .op .pow, .op .add, .openParen, .op .mul]
          (["2", "*", "(", "1", "+", "3", "^", "4", "^", "5", ")"].drop 10) ∧
      (∀ x ∈ [Token.op .pow, .op .pow, .op .add, .openParen, .op .mul],
        (∃ o, x = .op o) ∨ x = .openParen) ∧
      ∀ above ops below, [Token.op .pow, .op .pow, .op .add, .openParen, .op .mul] =
        above ++ ops.map .op ++ below → OrderedRun ops := by
  have reached : (["2", "*", "(", "1", "+", "3", "^", "4", "^", "5", ")"].take 10).foldlM
      shuntStep ([], []) = .ok ([.num "2", .num "1", .num "3", .num "4", .num "5"],
        [.op .pow, .op .pow, .op .add, .openParen, .op .mul]) := by
    decide +kernel
  exact ⟨reached, shunt_stack_ordered _ 10 reached⟩

end AgentLab.Calc
