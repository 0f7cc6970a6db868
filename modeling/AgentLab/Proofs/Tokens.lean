import AgentLab.Calc.Lexer
import Mathlib.Data.List.Chain
import Mathlib.Data.List.TakeWhile
/-!
Token texts read back. A token as the tokenizer makes it (a numeral whose text is a numeral, an
operator or a parenthesis) is read back from its text, and a text read as a token is that token's
text. The tokenizer's own laws come after: on tokens laid out with blanks before each of them it
gives the tokens back, provided no two numerals run together.
-/

namespace AgentLab.Calc

namespace Token

/-- A numeral token holds the text of a numeral; the other tokens are always well made. -/
def Valid : Token → Prop
  | num t => isNumeral t.toList = true
  | _ => True

def isNum : Token → Bool
  | num _ => true
  | _ => false

def isParen : Token → Bool
  | openParen => true
  | closeParen => true
  | _ => false

@[simp] theorem ofText?_symbol (o : Op) : ofText? o.symbol = some (op o) := by
  cases o <;> decide

theorem ofText?_num {t : String} (numeral : isNumeral t.toList = true) :
    ofText? t = some (num t) := by
  simp [ofText?, numeral]

theorem ofText?_text {t : Token} (valid : t.Valid) : ofText? t.text = some t := by
  cases t with
  | num t => exact ofText?_num valid
  | op o => exact ofText?_symbol o
  | openParen => decide
  | closeParen => decide

theorem ofSymbol?_eq_some {x : String} {o : Op} (read : Op.ofSymbol? x = some o) :
    o.symbol = x := by
  unfold Op.ofSymbol? at read
  split at read <;> first | (cases read; rfl) | cases read

theorem text_of_ofText? {x : String} {t : Token} (read : ofText? x = some t) :
    t.text = x ∧ t.Valid := by
  unfold ofText? at read
  split at read
  · rename_i numeral
    cases read
    exact ⟨rfl, numeral⟩
  · split at read
    · rename_i o symbol
      cases read
      exact ⟨ofSymbol?_eq_some symbol, trivial⟩
    · split at read
      · rename_i opening
        cases read
        exact ⟨opening.symm, trivial⟩
      · split at read
        · rename_i closing
          cases read
          exact ⟨closing.symm, trivial⟩
        · cases read

theorem symbol_text {t : Token} (symbol : t.isNum = false) :
    ∃ c, t.text.toList = [c] ∧ Text.isDigit c = false ∧ c ≠ '.' ∧ Text.isBlank c = false ∧
      ofSymbolChar? c = some t := by
  cases t with
  | num _ => cases symbol
  | op o => cases o <;> exact ⟨_, rfl, by decide, by decide, by decide, rfl⟩
  | openParen => exact ⟨_, rfl, by decide, by decide, by decide, rfl⟩
  | closeParen => exact ⟨_, rfl, by decide, by decide, by decide, rfl⟩

end Token

/-! ## Scanning laid-out tokens -/

theorem isDigit_of_isBlank {c : Char} (blank : Text.isBlank c = true) : Text.isDigit c = false := by
  have apart : ∀ n ∈ Text.blankPoints,
      (Text.digitZeros.find? fun z => z ≤ n && n < z + 10) = none := by decide
  simp only [Text.isBlank, List.contains_iff_mem] at blank
  simp [Text.isDigit, Text.digitValue?, apart _ blank]

theorem isNumeral_split {cs : List Char} (numeral : isNumeral cs = true) :
    ∃ d ds fs, cs = d :: ds ++ fs ∧ (∀ c ∈ d :: ds, Text.isDigit c = true) ∧
      (fs = [] ∨ ∃ f more, fs = '.' :: f :: more ∧ ∀ c ∈ f :: more, Text.isDigit c = true) := by
  have whole := List.takeWhile_append_dropWhile (p := Text.isDigit) (l := cs)
  have digits : ∀ c ∈ cs.takeWhile Text.isDigit, Text.isDigit c = true :=
    fun _ member => List.mem_takeWhile_imp member
  unfold isNumeral at numeral
  split at numeral
  · rename_i tail
    rw [tail, List.append_nil] at whole
    rw [whole] at digits
    cases cs with
    | nil => cases numeral
    | cons d ds => exact ⟨d, ds, [], by simp, digits, .inl rfl⟩
  · rename_i rest tail
    simp only [Bool.and_eq_true, Bool.not_eq_eq_eq_not, Bool.not_true, List.isEmpty_eq_false_iff,
      List.all_eq_true] at numeral
    obtain ⟨⟨lead, filled⟩, after⟩ := numeral
    obtain ⟨d, ds, split⟩ := List.exists_cons_of_ne_nil lead
    obtain ⟨f, more, rfl⟩ := List.exists_cons_of_ne_nil filled
    rw [split] at digits
    rw [split, tail] at whole
    exact ⟨d, ds, _, whole.symm, digits, .inr ⟨f, more, rfl, after⟩⟩
  · cases numeral

def EndsNumeral (more : List Char) : Prop :=
  ∀ c ∈ more.head?, Text.isDigit c = false ∧ c ≠ '.'

theorem EndsNumeral.takeWhile {more : List Char} (ends : EndsNumeral more) :
    more.takeWhile Text.isDigit = [] := by
  cases more with
  | nil => rfl
  | cons c rest => simp [(ends c rfl).1]

theorem EndsNumeral.dropWhile {more : List Char} (ends : EndsNumeral more) :
    more.dropWhile Text.isDigit = more := by
  cases more with
  | nil => rfl
  | cons c rest => simp [(ends c rfl).1]

theorem numeralPrefix_numeral {c : Char} {cs more : List Char}
    (numeral : isNumeral (c :: cs) = true) (ends : EndsNumeral more) :
    numeralPrefix c (cs ++ more) = (c :: cs, more) := by
  obtain ⟨d, ds, fs, split, digits, point⟩ := isNumeral_split numeral
  simp only [List.cons_append, List.cons.injEq] at split
  obtain ⟨rfl, rfl⟩ := split
  have lead : ∀ x ∈ ds, Text.isDigit x = true := fun x member => digits x (by simp [member])
  rcases point with rfl | ⟨f, rest, rfl, after⟩
  · have whole : numeralPrefix c (ds ++ more) = (c :: ds, more) := by
      unfold numeralPrefix
      rw [List.takeWhile_append_of_pos lead, List.dropWhile_append_of_pos lead, ends.takeWhile,
        ends.dropWhile]
      -- a point right after the digits would go on with the numeral
      split
      · exact absurd rfl (ends '.' (by simp_all)).2
      · simp
    simpa using whole
  · have tailDigits : ∀ x ∈ rest, Text.isDigit x = true :=
      fun x member => after x (by simp [member])
    have notDigit : Text.isDigit '.' = false := by decide
    unfold numeralPrefix
    rw [List.append_assoc, List.takeWhile_append_of_pos lead, List.dropWhile_append_of_pos lead]
    simp only [List.cons_append, List.takeWhile_cons, List.dropWhile_cons, notDigit]
    simp [after f (by simp), List.takeWhile_append_of_pos tailDigits,
      List.dropWhile_append_of_pos tailDigits, ends.takeWhile, ends.dropWhile]

theorem lexeme?_text {t : Token} {more : List Char} (valid : t.Valid)
    (ends : t.isNum = true → EndsNumeral more) :
    lexeme? (t.text.toList ++ more) = some (t, more) := by
  cases kind : t.isNum with
  | false =>
    obtain ⟨c, chars, notDigit, -, -, read⟩ := Token.symbol_text kind
    simp [chars, lexeme?, notDigit, read]
  | true =>
    cases t with
    | num s =>
      obtain ⟨d, ds, fs, split, digits, -⟩ := isNumeral_split valid
      have chars : s.toList = d :: (ds ++ fs) := by simpa using split
      have lead : Text.isDigit d = true := digits d (by simp)
      have numeral : isNumeral (d :: (ds ++ fs)) = true := chars ▸ valid
      simp only [Token.text, chars, List.cons_append, lexeme?, lead, if_true,
        numeralPrefix_numeral numeral (ends kind)]
      rw [← chars, String.ofList_toList]
    | _ => cases kind

theorem Token.text_head {t : Token} (valid : t.Valid) :
    ∃ c cs, t.text.toList = c :: cs ∧ Text.isBlank c = false := by
  cases kind : t.isNum with
  | false =>
    obtain ⟨c, chars, -, -, notBlank, -⟩ := Token.symbol_text kind
    exact ⟨c, [], chars, notBlank⟩
  | true =>
    cases t with
    | num s =>
      obtain ⟨d, ds, fs, split, digits, -⟩ := isNumeral_split valid
      refine ⟨d, ds ++ fs, by simpa [Token.text] using split, ?_⟩
      cases blank : Text.isBlank d with
      | false => rfl
      | true => simp [isDigit_of_isBlank blank] at digits
    | _ => cases kind

theorem scan_cons {cs rest : List Char} {t : Token}
    (found : lexeme? (cs.dropWhile Text.isBlank) = some (t, rest)) :
    scan cs = (scan rest).map (t :: ·) := by
  rw [scan]
  split
  · rename_i empty
    rw [List.isEmpty_iff.mp empty] at found
    cases found
  · split
    · rename_i absent
      rw [found] at absent
      cases absent
    · rename_i t' rest' present
      rw [found] at present
      cases present
      rfl

theorem scan_lead {blank more : List Char} {t : Token}
    (blanks : ∀ c ∈ blank, Text.isBlank c = true) (valid : t.Valid)
    (ends : t.isNum = true → EndsNumeral more) :
    scan (blank ++ t.text.toList ++ more) = (scan more).map (t :: ·) := by
  obtain ⟨c, cs, chars, notBlank⟩ := Token.text_head valid
  apply scan_cons
  rw [List.append_assoc, List.dropWhile_append_of_pos blanks, chars, List.cons_append,
    List.dropWhile_cons_of_neg (by simp [notBlank]), ← List.cons_append, ← chars]
  exact lexeme?_text valid ends

def spaced (ps : List (List Char × Token)) : List Char :=
  ps.flatMap fun p => p.1 ++ p.2.text.toList

theorem endsNumeral_spaced {q : List Char × Token} {rest : List (List Char × Token)}
    (blanks : ∀ c ∈ q.1, Text.isBlank c = true) (apart : q.1 = [] → q.2.isNum = false) :
    EndsNumeral (spaced (q :: rest)) := by
  intro c first
  cases lead : q.1 with
  | cons b bs =>
    have same : b = c := by simpa [spaced, lead] using first
    have blank : Text.isBlank c = true := same ▸ blanks b (by simp [lead])
    refine ⟨isDigit_of_isBlank blank, fun point => ?_⟩
    rw [point] at blank
    exact absurd blank (by decide)
  | nil =>
    obtain ⟨d, chars, notDigit, notPoint, -, -⟩ := Token.symbol_text (apart lead)
    have same : d = c := by simpa [spaced, lead, chars] using first
    exact same ▸ ⟨notDigit, notPoint⟩

/-- Well-made tokens laid out with blanks before each scan back to themselves, provided a numeral
that follows a numeral has blanks before it. The induction runs over the laid-out tokens. -/
theorem scan_spaced {ps : List (List Char × Token)}
    (blanks : ∀ p ∈ ps, ∀ c ∈ p.1, Text.isBlank c = true) (valid : ∀ p ∈ ps, p.2.Valid)
    (apart : ps.IsChain fun p q => p.2.isNum = true → q.2.isNum = true → q.1 ≠ []) :
    scan (spaced ps) = .ok (ps.map Prod.snd) := by
  induction ps with
  | nil =>
    rw [spaced, List.flatMap_nil, scan]
    rfl
  | cons p rest ih =>
    have ends : p.2.isNum = true → EndsNumeral (spaced rest) := by
      intro numeral
      cases rest with
      | nil =>
        intro c first
        simp [spaced] at first
      | cons q rest =>
        refine endsNumeral_spaced (blanks q (by simp)) fun bare => ?_
        cases kind : q.2.isNum with
        | false => rfl
        | true => exact absurd bare ((List.isChain_cons_cons.mp apart).1 numeral kind)
    have layout : spaced (p :: rest) = p.1 ++ p.2.text.toList ++ spaced rest := by
      simp [spaced]
    have restScan := ih (fun q member => blanks q (by simp [member]))
      (fun q member => valid q (by simp [member])) apart.tail
    rw [layout, scan_lead (blanks p (by simp)) (valid p (by simp)) ends, restScan]
    rfl

/-! ## Tokens the scanner gives -/

theorem isNumeral_of_digits {d : Char} {ds fs : List Char}
    (digits : ∀ c ∈ d :: ds, Text.isDigit c = true)
    (point : fs = [] ∨ ∃ f more, fs = '.' :: f :: more ∧ ∀ c ∈ f :: more, Text.isDigit c = true) :
    isNumeral (d :: ds ++ fs) = true := by
  unfold isNumeral
  rw [List.dropWhile_append_of_pos digits, List.takeWhile_append_of_pos digits]
  rcases point with rfl | ⟨f, more, rfl, after⟩
  · simp
  · have notDigit : Text.isDigit '.' = false := by decide
    simp only [List.dropWhile_cons, List.takeWhile_cons, notDigit]
    simpa using after

theorem numeralPrefix_isNumeral {c : Char} (digit : Text.isDigit c = true) (cs : List Char) :
    isNumeral (numeralPrefix c cs).1 = true := by
  have lead : ∀ x ∈ c :: cs.takeWhile Text.isDigit, Text.isDigit x = true := by
    intro x member
    rcases List.mem_cons.mp member with rfl | taken
    · exact digit
    · exact List.mem_takeWhile_imp taken
  unfold numeralPrefix
  split
  · rename_i d more _
    split
    · rename_i fraction
      refine isNumeral_of_digits lead (.inr ⟨d, _, rfl, fun x member => ?_⟩)
      rcases List.mem_cons.mp member with rfl | taken
      · exact fraction
      · exact List.mem_takeWhile_imp taken
    · simpa using isNumeral_of_digits lead (.inl rfl)
  · simpa using isNumeral_of_digits lead (.inl rfl)

theorem lexeme?_valid {cs rest : List Char} {t : Token} (found : lexeme? cs = some (t, rest)) :
    t.Valid := by
  cases cs with
  | nil => cases found
  | cons c cs =>
    simp only [lexeme?] at found
    split at found
    · rename_i digit
      simp only [Option.some.injEq, Prod.mk.injEq] at found
      obtain ⟨rfl, -⟩ := found
      show isNumeral (String.ofList _).toList = true
      rw [String.toList_ofList]
      exact numeralPrefix_isNumeral digit cs
    · simp only [Option.map_eq_some_iff, Prod.mk.injEq] at found
      obtain ⟨t', symbol, rfl, -⟩ := found
      unfold Token.ofSymbolChar? at symbol
      split at symbol <;> cases symbol <;> trivial

theorem scan_valid {cs : List Char} {ts : List Token} (scanned : scan cs = .ok ts) :
    ∀ t ∈ ts, t.Valid := by
  fun_induction scan cs generalizing ts with
  | case1 =>
    cases scanned
    simp
  | case2 => cases scanned
  | case3 cs _ t rest found _ ih =>
    cases tail : scan rest with
    | error f =>
      rw [tail] at scanned
      cases scanned
    | ok more =>
      rw [tail] at scanned
      cases scanned
      intro x member
      rcases List.mem_cons.mp member with rfl | later
      · exact lexeme?_valid found
      · exact ih tail x later

theorem filterMap_ofText?_text {ts : List Token} (valid : ∀ t ∈ ts, t.Valid) :
    (ts.map Token.text).filterMap Token.ofText? = ts := by
  induction ts with
  | nil => rfl
  | cons t rest ih =>
    simp [Token.ofText?_text (valid t (by simp)), ih fun x member => valid x (by simp [member])]

theorem map_text_inj {xs ys : List Token} (validX : ∀ t ∈ xs, t.Valid)
    (validY : ∀ t ∈ ys, t.Valid) (same : xs.map Token.text = ys.map Token.text) : xs = ys := by
  rw [← filterMap_ofText?_text validX, ← filterMap_ofText?_text validY, same]

end AgentLab.Calc
