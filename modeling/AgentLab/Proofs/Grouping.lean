import AgentLab.Proofs.Shunting
/-!
Parentheses in any list of token texts. The shunting-yard refuses a list exactly when a text is no
token or its parentheses do not nest, and the fault it reports is the one at the first place where
the texts go wrong: a text that is no token, or a closing parenthesis that finds every earlier one
closed; with no such place, a parenthesis left open at the end. On a list it accepts, its output is
the list without parentheses, rearranged, with the numerals in their order.

One more pair of parentheses around an accepted list changes nothing: the outer open parenthesis
sits at the bottom of the stack, where nothing pops it before the last closing one.
-/

namespace AgentLab.Calc

def depthAfter (depth : Nat) (text : String) : Option Nat :=
  match Token.ofText? text, depth with
  | none, _ => none
  | some .openParen, d => some (d + 1)
  | some .closeParen, 0 => none
  | some .closeParen, d + 1 => some d
  | some _, d => some d

def openAfter (depth : Nat) (texts : List String) : Option Nat :=
  texts.foldlM depthAfter depth

/-- `f` is the fault at the first place where the texts go wrong, `depth` parentheses being open
before them: a text that is no token, or a closing parenthesis that finds none open; with no such
place, the fault of a parenthesis left open at the end. -/
def FirstFault (depth : Nat) (texts : List String) (f : SyntaxFault) : Prop :=
  (∃ pre text post opened, texts = pre ++ text :: post ∧ openAfter depth pre = some opened ∧
      (Token.ofText? text = none ∧ f = .unknown text ∨
        text = ")" ∧ opened = 0 ∧ f = .unbalanced)) ∨
    ∃ opened, openAfter depth texts = some (opened + 1) ∧ f = .unbalanced

variable {depth : Nat} {text : String} {rest texts : List String} {f : SyntaxFault}

/-! ## Open parentheses -/

theorem ofText?_eq_closeParen : Token.ofText? text = some .closeParen ↔ text = ")" := by
  constructor
  · intro read
    exact (Token.text_of_ofText? read).1.symm
  · rintro rfl
    rfl

theorem openAfter_cons :
    openAfter depth (text :: rest) = (depthAfter depth text).bind (openAfter · rest) := by
  simp [openAfter, List.foldlM_cons]

theorem depthAfter_of_none (read : Token.ofText? text = none) : depthAfter depth text = none := by
  unfold depthAfter
  rw [read]

theorem depthAfter_of_open (read : Token.ofText? text = some .openParen) :
    depthAfter depth text = some (depth + 1) := by
  unfold depthAfter
  rw [read]

theorem depthAfter_of_close (read : Token.ofText? text = some .closeParen) :
    depthAfter depth text = if depth = 0 then none else some (depth - 1) := by
  unfold depthAfter
  rw [read]
  cases depth <;> rfl

theorem depthAfter_of_kept {t : Token} (read : Token.ofText? text = some t)
    (kept : t.isParen = false) : depthAfter depth text = some depth := by
  unfold depthAfter
  rw [read]
  cases t with
  | num n => rfl
  | op o => rfl
  | openParen => cases kept
  | closeParen => cases kept

theorem depthAfter_eq_none :
    depthAfter depth text = none ↔ Token.ofText? text = none ∨ (text = ")" ∧ depth = 0) := by
  rw [← ofText?_eq_closeParen]
  cases read : Token.ofText? text with
  | none => simp [depthAfter_of_none read]
  | some t =>
    cases t with
    | num n => simp [depthAfter_of_kept read rfl]
    | op o => simp [depthAfter_of_kept read rfl]
    | openParen => simp [depthAfter_of_open read]
    | closeParen => cases depth <;> simp [depthAfter_of_close read]

theorem firstFault_nil : FirstFault depth [] f ↔ 0 < depth ∧ f = .unbalanced := by
  constructor
  · rintro (⟨pre, text, post, opened, split, -⟩ | ⟨opened, after, rfl⟩)
    · simp at split
    · simp only [openAfter, List.foldlM_nil, Option.pure_def, Option.some.injEq] at after
      exact ⟨by omega, rfl⟩
  · rintro ⟨positive, rfl⟩
    exact .inr ⟨depth - 1, by simp [openAfter]; omega, rfl⟩

theorem firstFault_cons :
    FirstFault depth (text :: rest) f ↔
      (Token.ofText? text = none ∧ f = .unknown text) ∨
        (Token.ofText? text = some .closeParen ∧ depth = 0 ∧ f = .unbalanced) ∨
        ∃ next, depthAfter depth text = some next ∧ FirstFault next rest f := by
  constructor
  · rintro (⟨pre, t, post, opened, split, before, offends⟩ | ⟨opened, after, rfl⟩)
    · cases pre with
      | nil =>
        simp only [List.nil_append, List.cons.injEq] at split
        obtain ⟨rfl, rfl⟩ := split
        simp only [openAfter, List.foldlM_nil, Option.pure_def, Option.some.injEq] at before
        subst before
        rcases offends with unknown | ⟨closing, rfl, rfl⟩
        · exact .inl unknown
        · exact .inr (.inl ⟨ofText?_eq_closeParen.mpr closing, rfl, rfl⟩)
      | cons p pre =>
        simp only [List.cons_append, List.cons.injEq] at split
        obtain ⟨rfl, rfl⟩ := split
        rw [openAfter_cons, Option.bind_eq_some_iff] at before
        obtain ⟨next, step, before⟩ := before
        exact .inr (.inr ⟨next, step, .inl ⟨pre, t, post, opened, rfl, before, offends⟩⟩)
    · rw [openAfter_cons, Option.bind_eq_some_iff] at after
      obtain ⟨next, step, after⟩ := after
      exact .inr (.inr ⟨next, step, .inr ⟨opened, after, rfl⟩⟩)
  · rintro (unknown | ⟨closing, rfl, rfl⟩ | ⟨next, step, later⟩)
    · exact .inl ⟨[], text, rest, depth, rfl, rfl, .inl unknown⟩
    · exact .inl ⟨[], text, rest, 0, rfl, rfl, .inr ⟨ofText?_eq_closeParen.mp closing, rfl, rfl⟩⟩
    · rcases later with ⟨pre, t, post, opened, split, before, offends⟩ | ⟨opened, after, rfl⟩
      · refine .inl ⟨text :: pre, t, post, opened, by rw [split, List.cons_append], ?_, offends⟩
        rw [openAfter_cons, step]
        exact before
      · refine .inr ⟨opened, ?_, rfl⟩
        rw [openAfter_cons, step]
        exact after

/-! ## Where the shunting-yard fails -/

theorem count_open_eq_zero {stack : List Token}
    (unmatched : ∀ below, stack.dropWhile (· != Token.openParen) ≠ .openParen :: below) :
    stack.count .openParen = 0 := by
  rw [← count_open_dropWhile (· != Token.openParen) stack rfl]
  cases left : stack.dropWhile (· != Token.openParen) with
  | nil => rfl
  | cons top below =>
    -- the top of what is left is where dropping stopped: an open parenthesis
    have stopped := List.head_dropWhile_not (· != Token.openParen) (l := stack) (by simp [left])
    simp only [left, List.head_cons, bne_eq_false_iff_eq] at stopped
    exact absurd (stopped ▸ left) (unmatched below)

/-- The shunting-yard fails exactly with the first fault of the texts, the open parentheses on its
stack counting as open before them. The induction follows the recursion of `shunt`. -/
theorem shunt_eq_error_iff {out stack : List Token} :
    shunt out stack texts = .error f ↔ FirstFault (stack.count .openParen) texts f := by
  fun_induction shunt out stack texts with
  | case1 out stack opened =>
    have positive : 0 < stack.count .openParen := List.count_pos_iff.mpr (by simpa using opened)
    simp [firstFault_nil, positive, eq_comm]
  | case2 out stack free =>
    have none : stack.count .openParen = 0 := List.count_eq_zero.mpr (by simpa using free)
    simp [firstFault_nil, none]
  | case3 out stack text rest t found ih =>
    rw [ih, firstFault_cons]
    simp [depthAfter_of_kept found rfl, found]
  | case4 out stack text rest o found ih =>
    rw [ih, firstFault_cons]
    simp [depthAfter_of_kept found rfl, found, count_open_dropWhile (yieldsTo o) stack rfl]
  | case5 out stack text rest found ih =>
    rw [ih, firstFault_cons]
    simp [depthAfter_of_open found, found]
  | case6 out stack text rest found below opened ih =>
    -- the open parenthesis found below the operators is the one the closing one takes away
    have kept := count_open_dropWhile (· != Token.openParen) stack rfl
    rw [opened, List.count_cons_self] at kept
    rw [ih, firstFault_cons, ← kept]
    simp [depthAfter_of_close found, found]
  | case7 out stack text rest found unmatched =>
    have none := count_open_eq_zero unmatched
    rw [firstFault_cons, none]
    simp [depthAfter_of_close found, found, eq_comm]
  | case8 out stack text rest found =>
    rw [firstFault_cons]
    simp [depthAfter_of_none found, found, eq_comm]

theorem toPostfix_eq_error_iff : toPostfix texts = .error f ↔ FirstFault 0 texts f := by
  have shunted : shunt [] [] texts = .error f ↔ FirstFault 0 texts f := shunt_eq_error_iff
  rw [← shunted]
  unfold toPostfix
  cases shunt [] [] texts <;> simp [Except.map]

/-! ## Which texts the shunting-yard accepts -/

theorem exists_firstFault_iff : (∃ f, FirstFault depth texts f) ↔ openAfter depth texts ≠ some 0 := by
  induction texts generalizing depth with
  | nil =>
    simp only [firstFault_nil, openAfter, List.foldlM_nil, Option.pure_def, ne_eq,
      Option.some.injEq]
    constructor
    · rintro ⟨f, positive, -⟩
      omega
    · intro nonzero
      exact ⟨.unbalanced, by omega, rfl⟩
  | cons text rest ih =>
    simp only [firstFault_cons]
    rw [openAfter_cons]
    cases step : depthAfter depth text with
    | none =>
      -- the first text is itself the fault
      rw [Option.bind_none]
      refine ⟨fun _ => by simp, fun _ => ?_⟩
      rcases depthAfter_eq_none.mp step with unknown | ⟨closing, zero⟩
      · exact ⟨.unknown text, .inl ⟨unknown, rfl⟩⟩
      · exact ⟨.unbalanced, .inr (.inl ⟨ofText?_eq_closeParen.mpr closing, zero, rfl⟩)⟩
    | some next =>
      have clean : ¬ (Token.ofText? text = none ∨ (text = ")" ∧ depth = 0)) := by
        rw [← depthAfter_eq_none, step]
        simp
      rw [Option.bind_some, ← ih]
      constructor
      · rintro ⟨f, ⟨unknown, -⟩ | ⟨closing, zero, -⟩ | ⟨n, same, later⟩⟩
        · exact absurd (.inl unknown) clean
        · exact absurd (.inr ⟨ofText?_eq_closeParen.mp closing, zero⟩) clean
        · exact ⟨f, Option.some.inj same ▸ later⟩
      · rintro ⟨f, later⟩
        exact ⟨f, .inr (.inr ⟨next, rfl, later⟩)⟩

theorem openAfter_eq_zero_iff :
    openAfter depth texts = some 0 ↔
      (∀ text ∈ texts, Token.ofText? text ≠ none) ∧
        nested depth (texts.filterMap Token.ofText?) = true := by
  induction texts generalizing depth with
  | nil => simp [openAfter, nested]
  | cons text rest ih =>
    rw [openAfter_cons]
    cases read : Token.ofText? text with
    | none => simp [depthAfter_of_none read, read]
    | some t =>
      cases t with
      | num n => simp [depthAfter_of_kept read rfl, read, nested, ih]
      | op o => simp [depthAfter_of_kept read rfl, read, nested, ih]
      | openParen => simp [depthAfter_of_open read, read, nested, ih]
      | closeParen =>
        cases depth with
        | zero => simp [depthAfter_of_close read, read, nested]
        | succ d => simp [depthAfter_of_close read, read, nested, ih]

theorem toPostfix_refuses_iff :
    (∃ f, toPostfix texts = .error f) ↔
      (∃ text ∈ texts, Token.ofText? text = none) ∨
        nested 0 (texts.filterMap Token.ofText?) = false := by
  simp only [toPostfix_eq_error_iff, exists_firstFault_iff, ne_eq, openAfter_eq_zero_iff,
    not_and_or, not_forall, not_not, Bool.not_eq_true, exists_prop]

theorem known_of_toPostfix {rpn : List String} (accepted : toPostfix texts = .ok rpn) :
    ∀ text ∈ texts, Token.ofText? text ≠ none := by
  have faultless : ¬ ∃ f, FirstFault 0 texts f := by
    rintro ⟨f, fault⟩
    rw [← toPostfix_eq_error_iff, accepted] at fault
    cases fault
  rw [exists_firstFault_iff, not_not, openAfter_eq_zero_iff] at faultless
  exact faultless.1

/-! ## What the shunting-yard gives back -/

theorem map_text_filter {p : Token → Bool} {q : String → Bool}
    (agree : ∀ x t, Token.ofText? x = some t → p t = q x)
    (known : ∀ text ∈ texts, Token.ofText? text ≠ none) :
    ((texts.filterMap Token.ofText?).filter p).map Token.text = texts.filter q := by
  induction texts with
  | nil => rfl
  | cons x rest ih =>
    obtain ⟨t, read⟩ := Option.ne_none_iff_exists'.mp (known x List.mem_cons_self)
    have later := ih fun y member => known y (List.mem_cons_of_mem x member)
    rw [List.filterMap_cons_some read, List.filter_cons, List.filter_cons, agree x t read]
    cases q x <;> simp [later, (Token.text_of_ofText? read).1]

theorem isParen_agrees {x : String} {t : Token} (read : Token.ofText? x = some t) :
    (!t.isParen) = decide (x ≠ "(" ∧ x ≠ ")") := by
  obtain ⟨spelled, valid⟩ := Token.text_of_ofText? read
  subst spelled
  cases t with
  | num n =>
    -- a numeral is neither parenthesis: both fail to be numerals
    have apart : n ≠ "(" ∧ n ≠ ")" := by
      constructor <;> rintro rfl <;> exact absurd (show isNumeral _ = true from valid) (by decide)
    simp [Token.isParen, Token.text, apart]
  | op o => cases o <;> decide
  | openParen => decide
  | closeParen => decide

theorem isNum_agrees {x : String} {t : Token} (read : Token.ofText? x = some t) :
    t.isNum = isNumeral x.toList := by
  obtain ⟨spelled, valid⟩ := Token.text_of_ofText? read
  subst spelled
  cases t with
  | num n => exact valid.symm
  | op o => cases o <;> decide
  | openParen => decide
  | closeParen => decide

theorem toPostfix_output {rpn : List String} (accepted : toPostfix texts = .ok rpn) :
    rpn.Perm (texts.filter fun x => x ≠ "(" ∧ x ≠ ")") ∧
      rpn.filter (fun x => isNumeral x.toList) = texts.filter fun x => isNumeral x.toList := by
  obtain ⟨result, shunted, rfl⟩ := toPostfix_eq_ok accepted
  have known := known_of_toPostfix accepted
  have empty : Pending [] := fun _ member => absurd member List.not_mem_nil
  have kept := shunt_perm empty shunted
  have numerals := shunt_numerals empty shunted
  simp only [List.nil_append, List.filter_nil] at kept numerals
  -- every token of the output was read from one of the texts
  have read : ∀ t ∈ result, ∃ x, Token.ofText? x = some t := by
    intro t member
    obtain ⟨x, -, found⟩ := List.mem_filterMap.mp (List.mem_of_mem_filter (kept.subset member))
    exact ⟨x, found⟩
  refine ⟨?_, ?_⟩
  · rw [← map_text_filter (fun _ _ => isParen_agrees) known]
    exact kept.map Token.text
  · rw [← map_text_filter (fun _ _ => isNum_agrees) known, ← numerals, List.filter_map]
    congr 1
    refine List.filter_congr fun t member => ?_
    obtain ⟨x, found⟩ := read t member
    rw [Function.comp_apply, (Token.text_of_ofText? found).1, isNum_agrees found]

/-- When the shunting-yard refuses token texts and when it accepts them. It refuses exactly when a
text is no numeral, operator or parenthesis, or the parentheses do not nest; the fault, with its
message, is the one at the first place where the texts go wrong, or a parenthesis left open at the
end. What it accepts it gives back without parentheses, as a rearrangement of the other texts that
keeps the numerals in their order. -/
theorem toPostfix_refusal_and_output (texts : List String) :
    ((∃ f, toPostfix texts = .error f) ↔
        (∃ text ∈ texts, Token.ofText? text = none) ∨
          nested 0 (texts.filterMap Token.ofText?) = false) ∧
      (∀ f, toPostfix texts = .error f ↔ FirstFault 0 texts f) ∧
      (∀ t, (SyntaxFault.unknown t).message = "Token desconocido: " ++ t) ∧
      SyntaxFault.unbalanced.message = "Paréntesis mismatched" ∧
      ∀ rpn, toPostfix texts = .ok rpn →
        (∀ x ∈ rpn, x ≠ "(" ∧ x ≠ ")") ∧
          rpn.Perm (texts.filter fun x => x ≠ "(" ∧ x ≠ ")") ∧
          rpn.filter (fun x => isNumeral x.toList) = texts.filter fun x => isNumeral x.toList := by
  refine ⟨toPostfix_refuses_iff, fun _ => toPostfix_eq_error_iff, fun _ => rfl, rfl, ?_⟩
  intro rpn accepted
  obtain ⟨kept, numerals⟩ := toPostfix_output accepted
  refine ⟨fun x member => ?_, kept, numerals⟩
  simpa using List.of_mem_filter (kept.subset member)

theorem grouped_sum_output :
    toPostfix ["(", "1", "+", "2", ")", "*", "3"] = .ok ["1", "2", "+", "3", "*"] ∧
      ["1", "2", "+", "3", "*"].Perm
        (["(", "1", "+", "2", ")", "*", "3"].filter fun x => x ≠ "(" ∧ x ≠ ")") := by
  have accepted : toPostfix ["(", "1", "+", "2", ")", "*", "3"] = .ok ["1", "2", "+", "3", "*"] :=
    rfl
  exact ⟨accepted, ((toPostfix_refusal_and_output _).2.2.2.2 _ accepted).2.1⟩

/-! ## One more pair of parentheses -/

section Bottom

variable {p : Token → Bool} {x : Token} {l m : List Token}

theorem takeWhile_append_stop (stop : p x = false) :
    (l ++ x :: m).takeWhile p = l.takeWhile p := by
  induction l with
  | nil => simp [stop]
  | cons y l ih => by_cases hy : p y <;> simp [hy, ih]

theorem dropWhile_append_stop (stop : p x = false) :
    (l ++ x :: m).dropWhile p = l.dropWhile p ++ x :: m := by
  induction l with
  | nil => simp [stop]
  | cons y l ih => by_cases hy : p y <;> simp [hy, ih]

end Bottom

theorem shunt_open_bottom {out stack result : List Token} {texts : List String}
    (accepted : shunt out stack texts = .ok result) :
    shunt out (stack ++ [.openParen]) (texts ++ [")"]) = .ok result := by
  fun_induction shunt out stack texts with
  | case1 => cases accepted
  | case2 out stack free =>
    cases accepted
    have operators : ∀ x ∈ stack, x ≠ .openParen := fun x member same =>
      free (by simp [← same, member])
    rw [List.nil_append, shunt_close operators]
    simp [shunt]
  | case3 out stack text rest t found ih =>
    rw [List.cons_append, shunt]
    simpa [found] using ih accepted
  | case4 out stack text rest o found ih =>
    rw [List.cons_append, shunt]
    simpa [found, takeWhile_append_stop (rfl : yieldsTo o .openParen = false),
      dropWhile_append_stop (rfl : yieldsTo o .openParen = false)] using ih accepted
  | case5 out stack text rest found ih =>
    rw [List.cons_append, shunt]
    simpa [found] using ih accepted
  | case6 out stack text rest found below opened ih =>
    have taken := takeWhile_append_stop (p := (· != Token.openParen)) (x := .openParen) (l := stack) (m := []) rfl
    have dropped := dropWhile_append_stop (p := (· != Token.openParen)) (x := .openParen) (l := stack) (m := []) rfl
    rw [opened] at dropped
    rw [List.cons_append, shunt]
    simpa [found, taken, dropped] using ih accepted
  | case7 => cases accepted
  | case8 => cases accepted

/-- One more pair of parentheses around token texts the shunting-yard accepts, in the right
order or not, leaves their postfix form as it is. -/
theorem toPostfix_parenthesized {texts rpn : List String} (accepted : toPostfix texts = .ok rpn) :
    toPostfix (["("] ++ texts ++ [")"]) = toPostfix texts := by
  obtain ⟨result, shunted, rfl⟩ := toPostfix_eq_ok accepted
  have wrapped := shunt_open_bottom shunted
  rw [List.nil_append] at wrapped
  rw [accepted, toPostfix, List.singleton_append, List.cons_append, shunt_open, wrapped]
  rfl

theorem operator_last_parenthesized :
    toPostfix ["2", "3", "+"] = .ok ["2", "3", "+"] ∧
      toPostfix (["("] ++ ["2", "3", "+"] ++ [")"]) = toPostfix ["2", "3", "+"] := by
  have accepted : toPostfix ["2", "3", "+"] = .ok ["2", "3", "+"] := rfl
  exact ⟨accepted, toPostfix_parenthesized accepted⟩

end AgentLab.Calc
