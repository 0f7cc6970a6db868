import AgentLab.Calc.Postfix
import AgentLab.Proofs.Tokens
/-!
The shunting-yard on written expressions. An expression is written in infix with parentheses at
least where precedence and grouping need them, and possibly more (`Written`). `toPostfix` turns
every such writing into the postfix tokens of the expression, and `evalPostfix` runs those tokens
to the value of the expression, failing at the first operation that fails.

On any input it accepts, written or not, the shunting-yard checks no more than that the
parentheses nest: it keeps every numeral and operator, the numerals in their order. A run of
`evalPostfix` that leaves one value has built a tree.
-/

namespace AgentLab.Calc

namespace Expr

def rpn : Expr → List Token
  | num t => [.num t]
  | bin o l r => l.rpn ++ r.rpn ++ [.op o]

theorem rpn_text (e : Expr) : e.rpn.map Token.text = e.postorder := by
  induction e with
  | num t => rfl
  | bin o l r hl hr => simp [rpn, postorder, hl, hr, Token.text]

theorem rpn_valid {e : Expr} (numerals : e.WellFormed) : ∀ t ∈ e.rpn, t.Valid := by
  induction e with
  | num t =>
    intro x member
    rw [List.mem_singleton.mp member]
    exact numerals
  | bin o l r ihL ihR =>
    obtain ⟨numeralsL, numeralsR⟩ := numerals
    intro x member
    simp only [rpn, List.mem_append, List.mem_singleton] at member
    rcases member with (left | right) | rfl
    · exact ihL numeralsL x left
    · exact ihR numeralsR x right
    · trivial

/-- A child written bare under `o`, on the left or on the right, would be read otherwise: it binds
looser than `o`, or as loose on the side towards which `o` does not group. -/
def needsParens (o : Op) (right : Bool) : Expr → Bool
  | num _ => false
  | bin p _ _ => p.precedence < o.precedence ||
      (p.precedence == o.precedence && (if right then !o.rightAssoc else o.rightAssoc))

/-- How loosely the top of a writing binds: the precedence of its operator when it is written
bare, and 5, above every operator, for a numeral or a writing in parentheses. -/
def level : Expr → Bool → Nat
  | _, true => 5
  | num _, false => 5
  | bin o _ _, false => o.precedence

end Expr

/-- `ts` writes `e` in infix, with parentheses around a child at least where `needsParens` asks
for them and around any part besides; `wrapped` tells whether the whole is one parenthesized
group. -/
inductive Written : Expr → List Token → Bool → Prop
  | num (t : String) : Written (.num t) [.num t] false
  | paren {e : Expr} {ts : List Token} {wrapped : Bool} :
      Written e ts wrapped → Written e (.openParen :: ts ++ [.closeParen]) true
  | bin {o : Op} {l r : Expr} {ls rs : List Token} {wl wr : Bool} :
      Written l ls wl → Written r rs wr →
      (l.needsParens o false = true → wl = true) → (r.needsParens o true = true → wr = true) →
      Written (.bin o l r) (ls ++ .op o :: rs) false

theorem Op.precedence_le (o : Op) : o.precedence ≤ 4 := by
  cases o <;> decide

theorem Op.rightAssoc_eq (o : Op) : o.rightAssoc = decide (o.precedence = 4) := by
  cases o <;> rfl

theorem yields_of_level {o x : Op} {l : Expr} {wl : Bool}
    (needed : l.needsParens o false = true → wl = true) (pending : l.level wl ≤ x.precedence) :
    yieldsTo o (.op x) = true := by
  have bound := Op.precedence_le x
  cases wl with
  | true => simp [Expr.level] at pending; omega
  | false =>
    cases l with
    | num t => simp [Expr.level] at pending; omega
    | bin q _ _ =>
      simp only [Expr.level] at pending
      cases assoc : o.rightAssoc <;>
        simp_all [Expr.needsParens, yieldsTo] <;> omega

theorem stops_of_level {o x : Op} {r : Expr} {wr : Bool}
    (needed : r.needsParens o true = true → wr = true) (top : r.level wr ≤ x.precedence) :
    yieldsTo x (.op o) = false := by
  have bound := Op.precedence_le x
  cases wr with
  | true => simp [Expr.level] at top; omega
  | false =>
    cases r with
    | num t => simp [Expr.level] at top; omega
    | bin q _ _ =>
      simp only [Expr.level] at top
      have higher := Op.precedence_le o
      simp only [Expr.needsParens, yieldsTo, Op.rightAssoc_eq] at needed ⊢
      by_cases tight : x.precedence = 4 <;> by_cases tightO : o.precedence = 4 <;>
        simp_all <;> omega

theorem precedence_le_level {o : Op} {e : Expr} {right wrapped : Bool}
    (needed : e.needsParens o right = true → wrapped = true) : o.precedence ≤ e.level wrapped := by
  have bound := Op.precedence_le o
  cases wrapped with
  | true => simp [Expr.level]; omega
  | false =>
    cases e with
    | num t => simp [Expr.level]; omega
    | bin q _ _ =>
      simp only [Expr.needsParens, Op.rightAssoc_eq] at needed
      simp only [Expr.level]
      by_cases below : q.precedence < o.precedence <;> simp_all

theorem Written.valid {e : Expr} {ts : List Token} {wrapped : Bool}
    (written : Written e ts wrapped) (numerals : e.WellFormed) : ∀ t ∈ ts, t.Valid := by
  induction written with
  | num t =>
    intro x member
    rw [List.mem_singleton.mp member]
    exact numerals
  | paren _ ih =>
    intro x member
    simp only [List.cons_append, List.mem_cons, List.mem_append, List.not_mem_nil, or_false]
      at member
    rcases member with rfl | inner | rfl
    · trivial
    · exact ih numerals x inner
    · trivial
  | bin _ _ _ _ ihL ihR =>
    obtain ⟨numeralsL, numeralsR⟩ := numerals
    intro x member
    simp only [List.mem_append, List.mem_cons] at member
    rcases member with left | rfl | right
    · exact ihL numeralsL x left
    · trivial
    · exact ihR numeralsR x right

theorem Written.apart {e : Expr} {ts : List Token} {wrapped : Bool}
    (written : Written e ts wrapped) : ts.IsChain fun a b => a.isNum = true → b.isNum = false := by
  induction written with
  | num t => exact .singleton _
  | paren _ ih =>
    rw [List.cons_append]
    exact List.isChain_cons.mpr
      ⟨by simp [Token.isNum], ih.append (.singleton _) (by simp [Token.isNum])⟩
  | bin _ _ _ _ ihL ihR =>
    exact ihL.append (List.isChain_cons.mpr ⟨by simp [Token.isNum], ihR⟩) (by simp [Token.isNum])

/-! ## One token of the shunting-yard -/

variable {out stack : List Token} {rest : List String}

theorem shunt_num {t : String} (numeral : isNumeral t.toList = true) :
    shunt out stack (t :: rest) = shunt (out ++ [.num t]) stack rest := by
  simp [shunt, Token.ofText?_num numeral]

theorem shunt_op (o : Op) :
    shunt out stack (o.symbol :: rest) =
      shunt (out ++ stack.takeWhile (yieldsTo o)) (.op o :: stack.dropWhile (yieldsTo o)) rest := by
  simp [shunt]

theorem shunt_open : shunt out stack ("(" :: rest) = shunt out (.openParen :: stack) rest := by
  rw [shunt]
  rfl

theorem shunt_close {above below : List Token} (operators : ∀ x ∈ above, x ≠ .openParen) :
    shunt out (above ++ .openParen :: below) (")" :: rest) = shunt (out ++ above) below rest := by
  have kept : ∀ x ∈ above, (x != Token.openParen) = true := by simpa using operators
  rw [shunt]
  simp only [show Token.ofText? ")" = some .closeParen from rfl]
  rw [List.dropWhile_append_of_pos kept, List.takeWhile_append_of_pos kept]
  simp

/-! ## Writings -/

/-- The shunting-yard over a writing of `e`, on a stack whose top no operator of `e`'s level pops:
the tokens of `e` go out in postfix order, except for operators still pending above the old
stack, each binding at least as tight as `e`'s level. The induction follows the writing. -/
theorem Written.shunt_append {e : Expr} {ts : List Token} {wrapped : Bool}
    (written : Written e ts wrapped) (numerals : e.WellFormed)
    (guard : ∀ o : Op, e.level wrapped ≤ o.precedence → stack.takeWhile (yieldsTo o) = []) :
    ∃ (done : List Token) (pending : List Op), done ++ pending.map .op = e.rpn ∧
      (∀ x ∈ pending, e.level wrapped ≤ x.precedence) ∧
      ∀ out rest, shunt out stack (ts.map Token.text ++ rest) =
        shunt (out ++ done) (pending.map .op ++ stack) rest := by
  induction written generalizing stack with
  | num t =>
    refine ⟨[.num t], [], rfl, by simp, fun out rest => ?_⟩
    simpa [Token.text] using shunt_num numerals
  | @paren e ts inner written ih =>
    have opened : ∀ o : Op, e.level inner ≤ o.precedence →
        (Token.openParen :: stack).takeWhile (yieldsTo o) = [] := fun _ _ => rfl
    obtain ⟨done, pending, order, -, run⟩ := ih numerals opened
    refine ⟨done ++ pending.map .op, [], by simpa using order, by simp, fun out rest => ?_⟩
    have operators : ∀ x ∈ pending.map Token.op, x ≠ .openParen := by simp
    have tokens : (Token.openParen :: ts ++ [Token.closeParen]).map Token.text ++ rest =
        "(" :: (ts.map Token.text ++ ")" :: rest) := by simp [Token.text]
    rw [tokens, shunt_open, run, shunt_close operators]
    simp
  | @bin o l r ls rs wl wr left right neededL neededR ihL ihR =>
    obtain ⟨numeralsL, numeralsR⟩ := numerals
    have low : o.precedence ≤ l.level wl := precedence_le_level neededL
    obtain ⟨doneL, pendingL, orderL, boundL, runL⟩ :=
      ihL numeralsL (fun x high => guard x (Nat.le_trans low high))
    have raised : ∀ x : Op, r.level wr ≤ x.precedence →
        (Token.op o :: stack).takeWhile (yieldsTo x) = [] := by
      intro x high
      simp [stops_of_level neededR high]
    obtain ⟨doneR, pendingR, orderR, boundR, runR⟩ := ihR numeralsR raised
    refine ⟨doneL ++ pendingL.map .op ++ doneR, pendingR ++ [o], ?_, ?_, fun out rest => ?_⟩
    · simp [Expr.rpn, ← orderL, ← orderR]
    · intro x member
      rcases List.mem_append.mp member with pendingX | same
      · exact Nat.le_trans (precedence_le_level neededR) (boundR x pendingX)
      · rw [List.mem_singleton.mp same]
        exact Nat.le_refl _
    · have yields : ∀ x ∈ pendingL.map Token.op, yieldsTo o x = true := by
        intro x member
        obtain ⟨y, pendingY, rfl⟩ := List.mem_map.mp member
        exact yields_of_level neededL (boundL y pendingY)
      have stops : stack.takeWhile (yieldsTo o) = [] := guard o (Nat.le_refl _)
      have stays : stack.dropWhile (yieldsTo o) = stack := by
        simpa [stops] using List.takeWhile_append_dropWhile (p := yieldsTo o) (l := stack)
      have tokens : (ls ++ .op o :: rs).map Token.text ++ rest =
          ls.map Token.text ++ o.symbol :: (rs.map Token.text ++ rest) := by simp [Token.text]
      rw [tokens, runL, shunt_op, List.takeWhile_append_of_pos yields,
        List.dropWhile_append_of_pos yields, stops, stays, runR]
      simp

theorem Written.toPostfix_eq {e : Expr} {ts : List Token} {wrapped : Bool}
    (written : Written e ts wrapped) (numerals : e.WellFormed) :
    toPostfix (ts.map Token.text) = .ok e.postorder := by
  have empty : ∀ o : Op, e.level wrapped ≤ o.precedence →
      ([] : List Token).takeWhile (yieldsTo o) = [] := fun _ _ => rfl
  obtain ⟨done, pending, order, -, run⟩ := written.shunt_append numerals empty
  have ran := run [] []
  rw [List.append_nil, List.append_nil, List.nil_append] at ran
  rw [toPostfix, ran, shunt, ← Expr.rpn_text, ← order]
  simp [Except.map]

/-! ## Any accepted input -/

def nested : Nat → List Token → Bool
  | depth, [] => depth == 0
  | depth, .openParen :: rest => nested (depth + 1) rest
  | 0, .closeParen :: _ => false
  | depth + 1, .closeParen :: rest => nested depth rest
  | depth, _ :: rest => nested depth rest

theorem count_open_dropWhile (p : Token → Bool) (stack : List Token)
    (stops : p .openParen = false) :
    (stack.dropWhile p).count .openParen = stack.count .openParen := by
  have whole := List.takeWhile_append_dropWhile (p := p) (l := stack)
  have none : (stack.takeWhile p).count .openParen = 0 :=
    List.count_eq_zero.mpr fun member => by simpa [stops] using List.mem_takeWhile_imp member
  conv_rhs => rw [← whole]
  rw [List.count_append, none, Nat.zero_add]

/-- The shunting-yard accepts only texts whose parentheses nest, counting those open on its
stack. The induction follows the recursion of `shunt`. -/
theorem shunt_nested {out stack result : List Token} {texts : List String}
    (accepted : shunt out stack texts = .ok result) :
    nested (stack.count .openParen) (texts.filterMap Token.ofText?) = true := by
  fun_induction shunt out stack texts with
  | case1 => cases accepted
  | case2 out stack free =>
    have none : stack.count .openParen = 0 := List.count_eq_zero.mpr (by simpa using free)
    simp [none, nested]
  | case3 out stack text rest t found ih => simpa [found, nested] using ih accepted
  | case4 out stack text rest o found ih =>
    have kept := count_open_dropWhile (yieldsTo o) stack rfl
    simpa [found, nested, kept] using ih accepted
  | case5 out stack text rest found ih => simpa [found, nested] using ih accepted
  | case6 out stack text rest found below opened ih =>
    -- the open parenthesis found below the operators is the one the closing one takes away
    have kept := count_open_dropWhile (· != Token.openParen) stack rfl
    rw [opened, List.count_cons_self] at kept
    rw [← kept]
    simpa [found, nested] using ih accepted
  | case7 => cases accepted
  | case8 => cases accepted

def Pending (stack : List Token) : Prop :=
  ∀ x ∈ stack, x.isNum = false ∧ x ≠ .closeParen

section Pending

variable {stack : List Token} {p : Token → Bool}

theorem Pending.dropWhile (pending : Pending stack) : Pending (stack.dropWhile p) :=
  fun x member => pending x ((List.dropWhile_suffix p).subset member)

theorem Pending.push {x : Token} (pending : Pending stack) (kind : x.isNum = false)
    (opening : x ≠ .closeParen) : Pending (x :: stack) := by
  intro y member
  rcases List.mem_cons.mp member with rfl | below
  · exact ⟨kind, opening⟩
  · exact pending y below

theorem Pending.takeWhile_op (pending : Pending stack) (stops : p .openParen = false) :
    ∀ x ∈ stack.takeWhile p, ∃ o, x = .op o := by
  intro x member
  have taken : p x = true := List.mem_takeWhile_imp member
  obtain ⟨kind, notClose⟩ := pending x ((List.takeWhile_prefix p).subset member)
  cases x with
  | num _ => cases kind
  | op o => exact ⟨o, rfl⟩
  | openParen =>
    rw [stops] at taken
    cases taken
  | closeParen => exact absurd rfl notClose

theorem Pending.filter_split (pending : Pending stack) (stops : p .openParen = false) :
    stack.filter (!·.isParen) = stack.takeWhile p ++ (stack.dropWhile p).filter (!·.isParen) := by
  have whole := List.takeWhile_append_dropWhile (p := p) (l := stack)
  have kept : (stack.takeWhile p).filter (!·.isParen) = stack.takeWhile p := by
    refine List.filter_eq_self.mpr fun x member => ?_
    obtain ⟨o, rfl⟩ := pending.takeWhile_op stops x member
    rfl
  conv_lhs => rw [← whole]
  rw [List.filter_append, kept]

theorem Pending.numerals_takeWhile (pending : Pending stack) (stops : p .openParen = false) :
    (stack.takeWhile p).filter Token.isNum = [] := by
  refine List.filter_eq_nil_iff.mpr fun x member => ?_
  obtain ⟨o, rfl⟩ := pending.takeWhile_op stops x member
  simp [Token.isNum]

theorem Pending.below {below : List Token} (pending : Pending stack)
    (opened : stack.dropWhile (· != Token.openParen) = .openParen :: below) : Pending below := by
  have suffix := pending.dropWhile (p := (· != Token.openParen))
  rw [opened] at suffix
  exact fun x member => suffix x (List.mem_cons_of_mem _ member)

theorem shunt_perm {out result : List Token} {texts : List String} (pending : Pending stack)
    (accepted : shunt out stack texts = .ok result) :
    result.Perm (out ++ stack.filter (!·.isParen) ++
      (texts.filterMap Token.ofText?).filter (!·.isParen)) := by
  fun_induction shunt out stack texts with
  | case1 => cases accepted
  | case2 out stack free =>
    cases accepted
    have bare : stack.filter (!·.isParen) = stack := by
      refine List.filter_eq_self.mpr fun x member => ?_
      obtain ⟨-, notClose⟩ := pending x member
      have notOpen : x ≠ .openParen := fun same => free (by simp [← same, member])
      cases x <;> simp_all [Token.isParen]
    simp [bare]
  | case3 out stack text rest t found ih =>
    have moved := ih pending accepted
    simp only [List.filterMap_cons, found, List.filter_cons] at moved ⊢
    simp only [Token.isParen, Bool.not_false, if_true, List.append_assoc, List.singleton_append]
      at moved ⊢
    exact moved.trans (List.Perm.append_left out List.perm_middle.symm)
  | case4 out stack text rest o found ih =>
    have moved := ih (pending.dropWhile.push rfl nofun) accepted
    rw [pending.filter_split (p := yieldsTo o) rfl]
    simp only [List.filterMap_cons, found, List.filter_cons] at moved ⊢
    simp only [Token.isParen, Bool.not_false, if_true, List.append_assoc, List.cons_append]
      at moved ⊢
    exact moved.trans (List.Perm.append_left out (List.Perm.append_left _ List.perm_middle.symm))
  | case5 out stack text rest found ih =>
    have moved := ih (pending.push rfl nofun) accepted
    simpa [found, Token.isParen] using moved
  | case6 out stack text rest found below opened ih =>
    have split := pending.filter_split (p := (· != Token.openParen)) rfl
    rw [opened] at split
    have moved := ih (pending.below opened) accepted
    rw [split]
    simpa [found, Token.isParen] using moved
  | case7 => cases accepted
  | case8 => cases accepted

theorem shunt_numerals {out result : List Token} {texts : List String} (pending : Pending stack)
    (accepted : shunt out stack texts = .ok result) :
    result.filter Token.isNum = out.filter Token.isNum ++
      (texts.filterMap Token.ofText?).filter Token.isNum := by
  fun_induction shunt out stack texts with
  | case1 => cases accepted
  | case2 out stack free =>
    cases accepted
    have none : stack.filter Token.isNum = [] :=
      List.filter_eq_nil_iff.mpr fun x member => by simp [(pending x member).1]
    simp [none]
  | case3 out stack text rest t found ih =>
    simpa [found, Token.isNum, List.filter_cons] using ih pending accepted
  | case4 out stack text rest o found ih =>
    have moved := ih (pending.dropWhile.push rfl nofun) accepted
    simpa [found, Token.isNum, pending.numerals_takeWhile (p := yieldsTo o) rfl] using moved
  | case5 out stack text rest found ih =>
    simpa [found, Token.isNum] using ih (pending.push rfl nofun) accepted
  | case6 out stack text rest found below opened ih =>
    have moved := ih (pending.below opened) accepted
    simpa [found, Token.isNum, pending.numerals_takeWhile (p := (· != Token.openParen)) rfl]
      using moved
  | case7 => cases accepted
  | case8 => cases accepted

end Pending

theorem toPostfix_eq_ok {texts rpn : List String} (ordered : toPostfix texts = .ok rpn) :
    ∃ result, shunt [] [] texts = .ok result ∧ result.map Token.text = rpn := by
  unfold toPostfix at ordered
  cases shunted : shunt [] [] texts with
  | error f =>
    rw [shunted] at ordered
    cases ordered
  | ok result =>
    rw [shunted] at ordered
    cases ordered
    exact ⟨result, rfl, rfl⟩

/-! ## Running the postfix form -/

theorem evalPostfix_postorder {e : Expr} (numerals : e.WellFormed) (stack : List Float)
    (rest : List String) :
    evalPostfix stack (e.postorder ++ rest) =
      match e.value with
      | .ok v => evalPostfix (v :: stack) rest
      | .error f => .error (.operation f) := by
  induction e generalizing stack rest with
  | num t => simp [Expr.postorder, Expr.value, evalPostfix, Token.ofText?_num numerals]
  | bin o l r ihL ihR =>
    obtain ⟨numeralsL, numeralsR⟩ := numerals
    have texts : (Expr.bin o l r).postorder ++ rest =
        l.postorder ++ (r.postorder ++ o.symbol :: rest) := by
      simp [Expr.postorder]
    rw [texts, ihL numeralsL]
    cases valueL : l.value with
    | error f =>
      simp only [Expr.value, valueL]
      rfl
    | ok a =>
      simp only
      rw [ihR numeralsR]
      cases valueR : r.value with
      | error f =>
        simp only [Expr.value, valueL, valueR]
        rfl
      | ok b =>
        have value : (Expr.bin o l r).value = o.apply a b := by
          simp only [Expr.value, valueL, valueR]
          rfl
        rw [value]
        -- split the operation first, so both sides reduce to one term
        cases applied : o.apply a b with
        | ok w => simp only [evalPostfix, Token.ofText?_symbol, applied]
        | error f => simp only [evalPostfix, Token.ofText?_symbol, applied]

/-- A run of postfix texts that leaves one value has built a tree of that value: the texts are
what is left of the postfix form of the tree once the trees of the stack, from the bottom, are
taken off its front. The induction runs over the texts with the trees of the stack beside the
values. -/
theorem evalPostfix_tree {stack : List Float} {trees : List Expr} {texts : List String}
    {v : Float} (numerals : ∀ e ∈ trees, e.WellFormed)
    (values : trees.map Expr.value = stack.map .ok) (ran : evalPostfix stack texts = .ok v) :
    ∃ e : Expr, e.WellFormed ∧ e.value = .ok v ∧
      e.postorder = trees.reverse.flatMap Expr.postorder ++ texts := by
  induction texts generalizing stack trees with
  | nil =>
    rcases stack with _ | ⟨w, _ | ⟨_, _⟩⟩
    · cases ran
    · obtain ⟨e, rfl⟩ := List.length_eq_one_iff.mp (by simpa using congrArg List.length values)
      simp only [evalPostfix, Except.ok.injEq] at ran
      simp only [List.map_cons, List.map_nil, List.cons.injEq, and_true] at values
      exact ⟨e, numerals e (by simp), ran ▸ values, by simp⟩
    · cases ran
  | cons text rest ih =>
    cases found : Token.ofText? text with
    | none => simp [evalPostfix, found] at ran
    | some t =>
      obtain ⟨spelled, valid⟩ := Token.text_of_ofText? found
      cases t with
      | num t =>
        simp only [evalPostfix, found] at ran
        have pushed : ∀ x ∈ Expr.num t :: trees, x.WellFormed := by
          intro x member
          rcases List.mem_cons.mp member with rfl | older
          · exact valid
          · exact numerals x older
        obtain ⟨e, numeralsE, value, order⟩ := ih pushed (by simp [values, Expr.value]) ran
        refine ⟨e, numeralsE, value, ?_⟩
        simp [order, ← spelled, Token.text, Expr.postorder]
      | op o =>
        rcases stack with _ | ⟨b, _ | ⟨a, below⟩⟩
        · simp [evalPostfix, found] at ran
        · simp [evalPostfix, found] at ran
        rcases trees with _ | ⟨eb, _ | ⟨ea, older⟩⟩
        · simp at values
        · simp at values
        · simp only [List.map_cons, List.cons.injEq] at values
          obtain ⟨valueB, valueA, valuesBelow⟩ := values
          simp only [evalPostfix, found] at ran
          cases applied : o.apply a b with
          | error f =>
            rw [applied] at ran
            cases ran
          | ok w =>
            rw [applied] at ran
            have joined : (Expr.bin o ea eb).value = .ok w := by
              simp only [Expr.value, valueA, valueB]
              exact applied
            have pushed : ∀ x ∈ Expr.bin o ea eb :: older, x.WellFormed := by
              intro x member
              rcases List.mem_cons.mp member with rfl | deeper
              · exact ⟨numerals ea (by simp), numerals eb (by simp)⟩
              · exact numerals x (by simp [deeper])
            obtain ⟨e, numeralsE, value, order⟩ :=
              ih pushed (by simp [valuesBelow, joined]) ran
            refine ⟨e, numeralsE, value, ?_⟩
            simp [order, ← spelled, Token.text, Expr.postorder]
      | openParen => simp [evalPostfix, found] at ran
      | closeParen => simp [evalPostfix, found] at ran

end AgentLab.Calc
