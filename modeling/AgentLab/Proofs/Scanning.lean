import AgentLab.Proofs.Tokens
/-!
What the tokenizer accepts. A text is accepted exactly when it is a layout of tokens: each token
after its own run of blanks, no blanks at the end, and a numeral followed by the end, a blank or an
operator or parenthesis. The layout is then unique, the tokens are its tokens, and they spell the
text without its blanks. Any other text is refused with the rest of the text from where the scan
stops: after the longest tokens it could read, at a place where no token starts after the blanks.

The scan reads the longest numeral at each place. This is stated without the scan's own steps: no
numeral that extends a token's text into the text after it exists (`Token.Longest`).
-/

namespace AgentLab.Calc

/-! ## Longest numerals -/

variable {c d : Char} {cs xs : List Char}

theorem isNumeral_digits_point {ds : List Char} (digits : ∀ x ∈ ds, Text.isDigit x = true)
    (lead : ds ≠ []) : isNumeral (ds ++ '.' :: xs) = (!xs.isEmpty && xs.all Text.isDigit) := by
  have notDigit : Text.isDigit '.' = false := by decide
  obtain ⟨e, es, rfl⟩ := List.exists_cons_of_ne_nil lead
  unfold isNumeral
  rw [List.dropWhile_append_of_pos digits, List.takeWhile_append_of_pos digits]
  simp [notDigit]

theorem isNumeral_digits_stop {ds : List Char} (digits : ∀ x ∈ ds, Text.isDigit x = true)
    (stop : Text.isDigit c = false) (other : c ≠ '.') : isNumeral (ds ++ c :: xs) = false := by
  unfold isNumeral
  rw [List.dropWhile_append_of_pos digits, List.dropWhile_cons_of_neg (by simp [stop])]
  split
  · rename_i empty
    cases empty
  · rename_i rest same
    cases same
    exact absurd rfl other
  · rfl

theorem isNumeral_append_digit (numeral : isNumeral cs = true) (digit : Text.isDigit d = true) :
    isNumeral (cs ++ [d]) = true := by
  obtain ⟨e, es, fs, rfl, digits, point⟩ := isNumeral_split numeral
  rcases point with rfl | ⟨f, more, rfl, after⟩
  · have longer : ∀ x ∈ e :: (es ++ [d]), Text.isDigit x = true := by
      intro x member
      simp only [List.mem_cons, List.mem_append, List.not_mem_nil, or_false] at member
      rcases member with rfl | inside | rfl
      · exact digits x (by simp)
      · exact digits x (by simp [inside])
      · exact digit
    simpa using isNumeral_of_digits longer (.inl rfl)
  · have fraction : ∀ x ∈ f :: (more ++ [d]), Text.isDigit x = true := by
      intro x member
      simp only [List.mem_cons, List.mem_append, List.not_mem_nil, or_false] at member
      rcases member with rfl | inside | rfl
      · exact after x (by simp)
      · exact after x (by simp [inside])
      · exact digit
    simpa using isNumeral_of_digits digits (.inr ⟨f, more ++ [d], rfl, fraction⟩)

theorem numeralPrefix_of_fraction {f : Char} {more : List Char}
    (rest : cs.dropWhile Text.isDigit = '.' :: f :: more) (fraction : Text.isDigit f = true) :
    numeralPrefix c cs = (c :: cs.takeWhile Text.isDigit ++ '.' :: f :: more.takeWhile Text.isDigit,
      more.dropWhile Text.isDigit) := by
  unfold numeralPrefix
  rw [rest]
  simp [fraction]

theorem numeralPrefix_of_point {f : Char} {more : List Char}
    (rest : cs.dropWhile Text.isDigit = '.' :: f :: more) (noFraction : Text.isDigit f = false) :
    numeralPrefix c cs = (c :: cs.takeWhile Text.isDigit, '.' :: f :: more) := by
  unfold numeralPrefix
  rw [rest]
  simp [noFraction]

theorem numeralPrefix_of_other (other : ∀ f more, cs.dropWhile Text.isDigit ≠ '.' :: f :: more) :
    numeralPrefix c cs = (c :: cs.takeWhile Text.isDigit, cs.dropWhile Text.isDigit) := by
  unfold numeralPrefix
  split
  · rename_i f more rest
    exact absurd rest (other f more)
  · rfl

theorem numeralPrefix_append (c : Char) (cs : List Char) :
    (numeralPrefix c cs).1 ++ (numeralPrefix c cs).2 = c :: cs := by
  have whole := List.takeWhile_append_dropWhile (p := Text.isDigit) (l := cs)
  by_cases shape : ∃ f more, cs.dropWhile Text.isDigit = '.' :: f :: more
  · obtain ⟨f, more, rest⟩ := shape
    rw [rest] at whole
    cases fraction : Text.isDigit f
    · rw [numeralPrefix_of_point rest fraction]
      simp only [List.cons_append, whole]
    · have tail := List.takeWhile_append_dropWhile (p := Text.isDigit) (l := more)
      rw [numeralPrefix_of_fraction rest fraction]
      simp only [List.cons_append, List.append_assoc, tail, whole]
  · simp only [not_exists] at shape
    rw [numeralPrefix_of_other shape]
    simp only [List.cons_append, whole]

theorem numeralPrefix_longest (digit : Text.isDigit c = true) (x : List Char)
    (inside : x <+: (numeralPrefix c cs).2) (nonempty : x ≠ []) :
    isNumeral ((numeralPrefix c cs).1 ++ x) = false := by
  have lead : ∀ y ∈ c :: cs.takeWhile Text.isDigit, Text.isDigit y = true := by
    intro y member
    rcases List.mem_cons.mp member with rfl | taken
    · exact digit
    · exact List.mem_takeWhile_imp taken
  obtain ⟨y, ys, rfl⟩ := List.exists_cons_of_ne_nil nonempty
  obtain ⟨tail, after⟩ := inside
  by_cases shape : ∃ f more, cs.dropWhile Text.isDigit = '.' :: f :: more
  · obtain ⟨f, more, rest⟩ := shape
    cases fraction : Text.isDigit f
    · -- a point with no digit after it ends the numeral before the point
      rw [numeralPrefix_of_point rest fraction] at after ⊢
      simp only [List.cons_append, List.cons.injEq] at after
      dsimp only
      obtain ⟨rfl, after⟩ := after
      rw [isNumeral_digits_point lead (by simp)]
      cases ys with
      | nil => rfl
      | cons z zs =>
        simp only [List.cons_append, List.cons.injEq] at after
        obtain ⟨rfl, -⟩ := after
        simp [fraction]
    · -- a fraction was read: the text after it starts with no digit
      rw [numeralPrefix_of_fraction rest fraction] at after ⊢
      dsimp only at after ⊢
      have first := List.head?_dropWhile_not Text.isDigit more
      rw [← after] at first
      have stop : Text.isDigit y = false := by simpa using first
      rw [List.append_assoc, List.cons_append (a := '.'), isNumeral_digits_point lead (by simp)]
      simp [stop]
  · simp only [not_exists] at shape
    rw [numeralPrefix_of_other shape] at after ⊢
    dsimp only at after ⊢
    have first := List.head?_dropWhile_not Text.isDigit cs
    rw [← after] at first
    have stop : Text.isDigit y = false := by simpa using first
    by_cases point : y = '.'
    · -- a point at the very end
      subst point
      cases ys with
      | nil => rw [isNumeral_digits_point lead (by simp)]; rfl
      | cons z zs => exact absurd (by rw [← after]; simp) (shape z (zs ++ tail))
    · exact isNumeral_digits_stop lead stop point

theorem isNumeral_head (numeral : isNumeral cs = true) :
    ∃ d ds, cs = d :: ds ∧ Text.isDigit d = true := by
  obtain ⟨d, ds, fs, split, digits, -⟩ := isNumeral_split numeral
  exact ⟨d, ds ++ fs, by simpa using split, digits d List.mem_cons_self⟩

theorem isNumeral_cons_stop (stop : Text.isDigit c = false) (other : c ≠ '.') :
    isNumeral (c :: xs) = false := by
  have bare : isNumeral ([] ++ c :: xs) = false :=
    isNumeral_digits_stop (fun x member => absurd member List.not_mem_nil) stop other
  simpa using bare

theorem numeralPrefix_of_longest {more : List Char} (numeral : isNumeral (c :: cs) = true)
    (longest : ∀ x, x <+: more → x ≠ [] → isNumeral (c :: cs ++ x) = false) :
    numeralPrefix c (cs ++ more) = (c :: cs, more) := by
  have digit : Text.isDigit c = true := by
    obtain ⟨d, ds, chars, lead⟩ := isNumeral_head numeral
    obtain ⟨rfl, -⟩ := List.cons.inj chars
    exact lead
  have read := numeralPrefix_isNumeral digit (cs ++ more)
  have whole := numeralPrefix_append c (cs ++ more)
  rw [← List.cons_append] at whole
  rcases List.append_eq_append_iff.mp whole with ⟨a, longer, after⟩ | ⟨b, shorter, after⟩
  · -- the read numeral would stop inside `c :: cs`
    cases a with
    | nil => exact Prod.ext (by simpa using longer.symm) (by simpa using after)
    | cons y ys =>
      have extended := numeralPrefix_longest digit (y :: ys) ⟨more, after.symm⟩ (List.cons_ne_nil _ _)
      rw [← longer, numeral] at extended
      cases extended
  · -- the read numeral would run on into `more`
    cases b with
    | nil => exact Prod.ext (by simpa using shorter) (by simpa using after.symm)
    | cons y ys =>
      have extended := longest (y :: ys) ⟨_, after.symm⟩ (List.cons_ne_nil _ _)
      rw [← shorter, read] at extended
      cases extended

/-! ## The longest token at a place -/

namespace Token

/-- No numeral extends the text of `t` into the text `more` after it: `t` is the longest token at
its place. -/
def Longest (t : Token) (more : List Char) : Prop :=
  ∀ x, x <+: more → x ≠ [] → isNumeral (t.text.toList ++ x) = false

theorem longest_of_symbol {t : Token} (symbol : t.isNum = false) (more : List Char) :
    t.Longest more := by
  intro x inside nonempty
  obtain ⟨c, chars, notDigit, notPoint, -, -⟩ := symbol_text symbol
  rw [chars, List.singleton_append]
  exact isNumeral_cons_stop notDigit notPoint

theorem longest_of_ends {t : Token} {more : List Char} (valid : t.Valid) (ends : EndsNumeral more) :
    t.Longest more := by
  cases kind : t.isNum with
  | false => exact longest_of_symbol kind more
  | true =>
    cases t with
    | num s =>
      intro x inside nonempty
      obtain ⟨y, ys, rfl⟩ := List.exists_cons_of_ne_nil nonempty
      obtain ⟨tail, rfl⟩ := inside
      obtain ⟨stop, other⟩ := ends y (by simp)
      obtain ⟨e, es, fs, split, digits, point⟩ := isNumeral_split valid
      show isNumeral (s.toList ++ y :: ys) = false
      rw [split]
      rcases point with rfl | ⟨f, rest, rfl, -⟩
      · rw [List.append_nil]
        exact isNumeral_digits_stop digits stop other
      · rw [List.append_assoc, List.cons_append (a := '.'), isNumeral_digits_point digits (by simp)]
        simp [stop]
    | _ => cases kind

theorem ofSymbolChar?_text {t : Token} (read : ofSymbolChar? c = some t) :
    t.text.toList = [c] ∧ t.isNum = false := by
  unfold ofSymbolChar? at read
  split at read <;> first | (cases read; exact ⟨rfl, rfl⟩) | cases read

end Token

theorem lexeme?_eq_some_iff {t : Token} {rest : List Char} :
    lexeme? cs = some (t, rest) ↔ t.Valid ∧ cs = t.text.toList ++ rest ∧ t.Longest rest := by
  constructor
  · intro found
    have valid := lexeme?_valid found
    cases cs with
    | nil => cases found
    | cons c cs =>
      simp only [lexeme?] at found
      split at found
      · rename_i digit
        simp only [Option.some.injEq, Prod.mk.injEq] at found
        obtain ⟨rfl, rfl⟩ := found
        refine ⟨valid, by simp [Token.text, numeralPrefix_append], fun x inside nonempty => ?_⟩
        simpa [Token.text] using numeralPrefix_longest digit x inside nonempty
      · simp only [Option.map_eq_some_iff, Prod.mk.injEq] at found
        obtain ⟨t', read, rfl, rfl⟩ := found
        obtain ⟨chars, symbol⟩ := Token.ofSymbolChar?_text read
        exact ⟨valid, by simp [chars], Token.longest_of_symbol symbol cs⟩
  · rintro ⟨valid, rfl, longest⟩
    cases kind : t.isNum with
    | false =>
      obtain ⟨c, chars, notDigit, -, -, read⟩ := Token.symbol_text kind
      simp [chars, lexeme?, notDigit, read]
    | true =>
      cases t with
      | num s =>
        obtain ⟨d, ds, chars, lead⟩ := isNumeral_head valid
        have numeral : isNumeral (d :: ds) = true := chars ▸ valid
        have atEnd : ∀ x, x <+: rest → x ≠ [] → isNumeral (d :: ds ++ x) = false := by
          intro x inside nonempty
          rw [← chars]
          exact longest x inside nonempty
        simp only [Token.text, chars, List.cons_append, lexeme?, lead, if_true,
          numeralPrefix_of_longest numeral atEnd]
        rw [← chars, String.ofList_toList]
      | _ => cases kind

theorem lexeme?_eq_none_iff :
    lexeme? cs = none ↔ ∀ c ∈ cs.head?, Text.isDigit c = false ∧ Token.ofSymbolChar? c = none := by
  cases cs with
  | nil => simp [lexeme?]
  | cons c cs => cases digit : Text.isDigit c <;> simp [lexeme?, digit]

/-! ## Layouts -/

/-- Tokens laid out each after its own run of blanks, each well made, and each numeral followed by
the end, a blank or an operator or parenthesis: a numeral right after a numeral has blanks before
it. -/
structure Layout (ps : List (List Char × Token)) : Prop where
  blanks : ∀ p ∈ ps, ∀ c ∈ p.1, Text.isBlank c = true
  valid : ∀ p ∈ ps, p.2.Valid
  apart : ps.IsChain fun p q => p.2.isNum = true → q.2.isNum = true → q.1 ≠ []

def StartsNoToken (rest : List Char) : Prop :=
  ∀ c ∈ (rest.dropWhile Text.isBlank).head?, Text.isDigit c = false ∧ Token.ofSymbolChar? c = none

def LastLongest (ps : List (List Char × Token)) (rest : List Char) : Prop :=
  ∀ p ∈ ps.getLast?, p.2.Longest rest

variable {p q : List Char × Token} {ps qs : List (List Char × Token)} {rest : List Char}

theorem layout_nil : Layout [] := ⟨by simp, by simp, List.IsChain.nil⟩

theorem Layout.tail (layout : Layout (p :: ps)) : Layout ps :=
  ⟨fun q member => layout.blanks q (List.mem_cons_of_mem p member),
    fun q member => layout.valid q (List.mem_cons_of_mem p member), layout.apart.tail⟩

theorem Layout.cons (blanks : ∀ c ∈ p.1, Text.isBlank c = true) (valid : p.2.Valid)
    (apart : ∀ q ∈ ps.head?, p.2.isNum = true → q.2.isNum = true → q.1 ≠ [])
    (layout : Layout ps) : Layout (p :: ps) :=
  ⟨List.forall_mem_cons.mpr ⟨blanks, layout.blanks⟩, List.forall_mem_cons.mpr ⟨valid, layout.valid⟩,
    List.isChain_cons.mpr ⟨apart, layout.apart⟩⟩

theorem lastLongest_cons (longest : ps = [] → p.2.Longest rest) (last : LastLongest ps rest) :
    LastLongest (p :: ps) rest := by
  intro q found
  cases ps with
  | nil =>
    simp only [List.getLast?_singleton, Option.mem_def, Option.some.injEq] at found
    exact found ▸ longest rfl
  | cons r ps => exact last q (by rwa [List.getLast?_cons_cons] at found)

theorem LastLongest.tail (last : LastLongest (p :: ps) rest) : LastLongest ps rest := by
  intro q found
  cases ps with
  | nil => cases found
  | cons r ps => exact last q (by rwa [List.getLast?_cons_cons])

theorem spaced_cons : spaced (p :: ps) = p.1 ++ p.2.text.toList ++ spaced ps := by
  simp [spaced]

theorem spaced_ne_nil (valid : q.2.Valid) : spaced (q :: qs) ≠ [] := by
  obtain ⟨c, cs, chars, -⟩ := Token.text_head valid
  simp [spaced_cons, chars]

theorem Layout.longest (layout : Layout (p :: ps)) (last : ps = [] → p.2.Longest rest) :
    p.2.Longest (spaced ps ++ rest) := by
  cases kind : p.2.isNum with
  | false => exact Token.longest_of_symbol kind _
  | true =>
    cases ps with
    | nil => exact last rfl
    | cons q qs =>
      have valid := layout.valid q (by simp)
      have ends : EndsNumeral (spaced (q :: qs)) :=
        endsNumeral_spaced (layout.blanks q (by simp)) fun bare => by
          cases qKind : q.2.isNum with
          | false => rfl
          | true => exact absurd bare ((List.isChain_cons_cons.mp layout.apart).1 kind qKind)
      refine Token.longest_of_ends (layout.valid p (by simp)) fun c first => ends c ?_
      rwa [List.head?_append_of_ne_nil _ (spaced_ne_nil valid)] at first

theorem apart_of_longest {t : Token} (valid : t.Valid) (numeral : t.isNum = true)
    (longest : t.Longest (spaced (q :: qs) ++ rest)) (next : q.2.Valid) (nextNumeral : q.2.isNum = true) :
    q.1 ≠ [] := by
  intro bare
  cases t with
  | num s =>
    cases u : q.2 with
    | num n =>
      rw [u] at next
      obtain ⟨d, ds, chars, lead⟩ := isNumeral_head next
      have run := longest [d] ⟨ds ++ (spaced qs ++ rest),
        by simp [spaced_cons, bare, u, Token.text, chars]⟩ (by simp)
      have grown : isNumeral (s.toList ++ [d]) = true := isNumeral_append_digit valid lead
      rw [Token.text, grown] at run
      cases run
    | _ => rw [u] at nextNumeral; cases nextNumeral
  | _ => cases numeral

theorem scan_nil : scan [] = .ok [] := by
  rw [scan]
  rfl

theorem scan_stuck (nonempty : rest ≠ []) (stuck : StartsNoToken rest) :
    scan rest = .error ⟨String.ofList rest⟩ := by
  rw [scan]
  split
  · rename_i empty
    exact absurd (List.isEmpty_iff.mp empty) nonempty
  · split
    · rfl
    · rename_i t more found
      rw [lexeme?_eq_none_iff.mpr stuck] at found
      cases found

theorem scan_spaced_append (layout : Layout ps) (last : LastLongest ps rest) :
    scan (spaced ps ++ rest) = (scan rest).map (ps.map Prod.snd ++ ·) := by
  induction ps with
  | nil =>
    simp only [spaced, List.flatMap_nil, List.nil_append, List.map_nil]
    cases scan rest <;> rfl
  | cons p ps ih =>
    obtain ⟨c, cs, chars, notBlank⟩ := Token.text_head (layout.valid p (by simp))
    have read : lexeme? ((spaced (p :: ps) ++ rest).dropWhile Text.isBlank) =
        some (p.2, spaced ps ++ rest) := by
      rw [spaced_cons, List.append_assoc, List.append_assoc,
        List.dropWhile_append_of_pos (layout.blanks p (by simp)), chars, List.cons_append,
        List.dropWhile_cons_of_neg (by simp [notBlank]), ← List.cons_append, ← chars]
      refine lexeme?_eq_some_iff.mpr ⟨layout.valid p (by simp), rfl, layout.longest fun empty => ?_⟩
      subst empty
      exact last p (by simp)
    rw [scan_cons read, ih layout.tail last.tail]
    cases scan rest <;> rfl

/-- Every text is a layout of the longest tokens the scan reads, followed by a rest that is empty
or starts no token after its blanks. The induction follows the scan. -/
theorem exists_layout (cs : List Char) : ∃ ps rest, cs = spaced ps ++ rest ∧ Layout ps ∧
    LastLongest ps rest ∧ (rest = [] ∨ StartsNoToken rest) := by
  induction cs using scan.induct with
  | case1 cs empty =>
    exact ⟨[], cs, by simp [spaced], layout_nil, by simp [LastLongest],
      .inl (List.isEmpty_iff.mp empty)⟩
  | case2 cs _ absent =>
    exact ⟨[], cs, by simp [spaced], layout_nil, by simp [LastLongest],
      .inr (lexeme?_eq_none_iff.mp absent)⟩
  | case3 cs _ t more found _ ih =>
    obtain ⟨ps, rest, split, layout, last, stop⟩ := ih
    obtain ⟨valid, chars, longest⟩ := lexeme?_eq_some_iff.mp found
    refine ⟨(cs.takeWhile Text.isBlank, t) :: ps, rest, ?_, ?_, ?_, stop⟩
    · rw [spaced_cons, List.append_assoc, List.append_assoc, ← split, ← chars,
        List.takeWhile_append_dropWhile]
    · refine Layout.cons (fun c member => List.mem_takeWhile_imp member) valid ?_ layout
      intro q first numeral nextNumeral
      cases ps with
      | nil => cases first
      | cons r ps =>
        simp only [List.head?_cons, Option.mem_def, Option.some.injEq] at first
        subst first
        exact apart_of_longest valid numeral (split ▸ longest) (layout.valid _ List.mem_cons_self)
          nextNumeral
    · refine lastLongest_cons (fun empty => ?_) last
      subst empty
      simpa [spaced, split] using longest

theorem scan_layout (layout : Layout ps) (last : LastLongest ps rest)
    (stop : rest = [] ∨ StartsNoToken rest) :
    scan (spaced ps ++ rest) =
      if rest = [] then .ok (ps.map Prod.snd) else .error ⟨String.ofList rest⟩ := by
  rw [scan_spaced_append layout last]
  by_cases empty : rest = []
  · subst empty
    rw [scan_nil, if_pos rfl]
    show Except.ok (ps.map Prod.snd ++ []) = _
    rw [List.append_nil]
  · rw [if_neg empty, scan_stuck empty (stop.resolve_left empty)]
    rfl

theorem scan_eq_ok_iff {ts : List Token} :
    scan cs = .ok ts ↔ ∃ ps, Layout ps ∧ cs = spaced ps ∧ ts = ps.map Prod.snd := by
  constructor
  · intro scanned
    obtain ⟨ps, rest, split, layout, last, stop⟩ := exists_layout cs
    rw [split, scan_layout layout last stop] at scanned
    split at scanned
    · rename_i empty
      cases scanned
      exact ⟨ps, layout, by rw [split, empty, List.append_nil], rfl⟩
    · cases scanned
  · rintro ⟨ps, layout, rfl, rfl⟩
    exact scan_spaced layout.blanks layout.valid layout.apart

theorem scan_eq_error_iff {f : LexFault} :
    scan cs = .error f ↔ ∃ ps rest, cs = spaced ps ++ rest ∧ Layout ps ∧ LastLongest ps rest ∧
      rest ≠ [] ∧ StartsNoToken rest ∧ f = ⟨String.ofList rest⟩ := by
  constructor
  · intro scanned
    obtain ⟨ps, rest, split, layout, last, stop⟩ := exists_layout cs
    rw [split, scan_layout layout last stop] at scanned
    split at scanned
    · cases scanned
    · rename_i nonempty
      cases scanned
      exact ⟨ps, rest, split, layout, last, nonempty, stop.resolve_left nonempty, rfl⟩
  · rintro ⟨ps, rest, rfl, layout, last, nonempty, stuck, rfl⟩
    rw [scan_layout layout last (.inr stuck), if_neg nonempty]

theorem takeWhile_spaced (layout : Layout (p :: ps)) :
    (spaced (p :: ps)).takeWhile Text.isBlank = p.1 := by
  obtain ⟨c, cs, chars, notBlank⟩ := Token.text_head (layout.valid p (by simp))
  rw [spaced_cons, List.append_assoc, List.takeWhile_append_of_pos (layout.blanks p (by simp)),
    chars, List.cons_append, List.takeWhile_cons_of_neg (by simp [notBlank]), List.append_nil]

theorem Layout.spaced_inj (layoutP : Layout ps) (layoutQ : Layout qs) (same : spaced ps = spaced qs) :
    ps = qs := by
  -- the scan reads the same tokens from both, and the blanks are what comes before each token
  have tokens : ps.map Prod.snd = qs.map Prod.snd := by
    have read := scan_spaced layoutP.blanks layoutP.valid layoutP.apart
    rw [same, scan_spaced layoutQ.blanks layoutQ.valid layoutQ.apart] at read
    exact (Except.ok.inj read).symm
  induction ps generalizing qs with
  | nil => exact (List.map_eq_nil_iff.mp tokens.symm).symm
  | cons p ps ih =>
    cases qs with
    | nil => cases tokens
    | cons q qs =>
      simp only [List.map_cons, List.cons.injEq] at tokens
      have blanks : p.1 = q.1 := by
        rw [← takeWhile_spaced layoutP, ← takeWhile_spaced layoutQ, same]
      have pair : p = q := Prod.ext blanks tokens.1
      subst pair
      rw [spaced_cons, spaced_cons] at same
      rw [ih layoutP.tail layoutQ.tail (List.append_cancel_left same) tokens.2]

theorem Token.text_not_blank {t : Token} (valid : t.Valid) : ∀ c ∈ t.text.toList, Text.isBlank c = false := by
  intro c member
  cases kind : t.isNum with
  | false =>
    obtain ⟨d, chars, -, -, notBlank, -⟩ := Token.symbol_text kind
    rw [chars, List.mem_singleton] at member
    exact member ▸ notBlank
  | true =>
    cases t with
    | num s =>
      obtain ⟨d, ds, fs, split, digits, point⟩ := isNumeral_split valid
      have notPoint : Text.isBlank '.' = false := by decide
      have ofDigit : ∀ x, Text.isDigit x = true → Text.isBlank x = false := by
        intro x digit
        cases blank : Text.isBlank x
        · rfl
        · rw [isDigit_of_isBlank blank] at digit
          cases digit
      simp only [Token.text] at member
      rw [split] at member
      rcases List.mem_append.mp member with lead | tail
      · exact ofDigit c (digits c lead)
      · rcases point with rfl | ⟨f, more, rfl, after⟩
        · cases tail
        · rcases List.mem_cons.mp tail with rfl | fraction
          · exact notPoint
          · exact ofDigit c (after c fraction)
    | _ => cases kind

theorem filter_spaced (layout : Layout ps) :
    (spaced ps).filter (fun c => !Text.isBlank c) = ps.flatMap fun p => p.2.text.toList := by
  induction ps with
  | nil => rfl
  | cons p ps ih =>
    have dropped : p.1.filter (fun c => !Text.isBlank c) = [] :=
      List.filter_eq_nil_iff.mpr fun c member => by simp [layout.blanks p (by simp) c member]
    have kept : p.2.text.toList.filter (fun c => !Text.isBlank c) = p.2.text.toList :=
      List.filter_eq_self.mpr fun c member => by
        simp [Token.text_not_blank (layout.valid p (by simp)) c member]
    rw [spaced_cons, List.filter_append, List.filter_append, dropped, kept, ih layout.tail,
      List.flatMap_cons, List.nil_append]

def spacedOut : List Token → List (List Char × Token)
  | [] => []
  | t :: rest => ([], t) :: rest.map fun u => ([' '], u)

theorem spaced_spacedOut (ts : List Token) :
    spaced (spacedOut ts) = [' '].intercalate (ts.map fun t => t.text.toList) := by
  induction ts with
  | nil => rfl
  | cons t rest ih =>
    cases rest with
    | nil => simp [spacedOut, spaced]
    | cons u more =>
      simp only [spacedOut, List.map_cons] at ih ⊢
      rw [List.intercalate_cons_cons, ← ih, spaced_cons, spaced_cons, spaced_cons]
      simp [spaced]

theorem layout_spacedOut {ts : List Token} (valid : ∀ t ∈ ts, t.Valid) : Layout (spacedOut ts) := by
  have space : Text.isBlank ' ' = true := by decide
  cases ts with
  | nil => exact layout_nil
  | cons t rest =>
    refine Layout.cons (by simp) (valid t (by simp)) (fun q first _ _ => ?_) ⟨?_, ?_, ?_⟩
    · obtain ⟨u, -, rfl⟩ := List.mem_map.mp (List.mem_of_mem_head? first)
      simp
    · intro q member c inside
      obtain ⟨u, -, rfl⟩ := List.mem_map.mp member
      rw [List.mem_singleton.mp inside]
      exact space
    · intro q member
      obtain ⟨u, inside, rfl⟩ := List.mem_map.mp member
      exact valid u (List.mem_cons_of_mem t inside)
    · exact List.isChain_iff_getElem.mpr fun i _ _ _ => by simp

theorem tokenize_intercalate {texts : List String}
    (known : ∀ x ∈ texts, isNumeral x.toList = true ∨ x ∈ ["^", "+", "-", "*", "/", "(", ")"]) :
    (tokenize (" ".intercalate texts)).map (·.map Token.text) = .ok texts := by
  -- each text is read as a token whose text it is
  obtain ⟨ts, spelled, valid⟩ : ∃ ts : List Token, ts.map Token.text = texts ∧ ∀ t ∈ ts, t.Valid := by
    induction texts with
    | nil => exact ⟨[], rfl, by simp⟩
    | cons x rest ih =>
      obtain ⟨ts, spelled, valid⟩ := ih fun y member => known y (List.mem_cons_of_mem x member)
      have read : ∃ t, Token.ofText? x = some t := by
        rcases known x List.mem_cons_self with numeral | symbol
        · exact ⟨_, Token.ofText?_num numeral⟩
        · simp only [List.mem_cons, List.not_mem_nil, or_false] at symbol
          rcases symbol with rfl | rfl | rfl | rfl | rfl | rfl | rfl <;> exact ⟨_, rfl⟩
      obtain ⟨t, found⟩ := read
      obtain ⟨text, made⟩ := Token.text_of_ofText? found
      refine ⟨t :: ts, by rw [List.map_cons, text, spelled], fun u member => ?_⟩
      rcases List.mem_cons.mp member with rfl | later
      · exact made
      · exact valid u later
  have joined : (" ".intercalate texts).toList = spaced (spacedOut ts) := by
    rw [String.toList_intercalate, spaced_spacedOut, ← spelled, List.map_map]
    rfl
  have read : tokenize (" ".intercalate texts) = .ok ((spacedOut ts).map Prod.snd) := by
    rw [tokenize, joined]
    exact scan_spaced (layout_spacedOut valid).blanks (layout_spacedOut valid).valid
      (layout_spacedOut valid).apart
  have tokens : (spacedOut ts).map Prod.snd = ts := by
    cases ts with
    | nil => rfl
    | cons t rest => simp [spacedOut, Function.comp_def]
  rw [read, tokens, ← spelled]
  rfl

/-- The tokenizer reads exactly the layouts of tokens. A text is accepted exactly when it is a
layout: each token after its own run of blanks, nothing after the last, and each numeral followed
by the end, a blank or an operator or parenthesis. The layout is then unique, the result is its
tokens, and they spell the text without its blanks. Any other text is refused with the rest of it
from where the scan stops: after a layout whose last token is the longest at its place, at a
non-empty rest that starts no token after its blanks. Token texts joined by single spaces read
back as themselves. -/
theorem tokenize_reads_layouts :
    (∀ s : String,
      ((∃ ts, tokenize s = .ok ts) ↔ ∃ ps, Layout ps ∧ s.toList = spaced ps) ∧
      (∀ ps, Layout ps → s.toList = spaced ps → tokenize s = .ok (ps.map Prod.snd)) ∧
      (∀ ps qs, Layout ps → Layout qs → s.toList = spaced ps → s.toList = spaced qs → ps = qs) ∧
      (∀ ts, tokenize s = .ok ts →
        String.join (ts.map Token.text) = String.ofList (s.toList.filter fun c => !Text.isBlank c)) ∧
      (∀ f, tokenize s = .error f ↔ ∃ ps rest, s.toList = spaced ps ++ rest ∧ Layout ps ∧
        LastLongest ps rest ∧ rest ≠ [] ∧ StartsNoToken rest ∧ f = ⟨String.ofList rest⟩)) ∧
    ∀ texts : List String,
      (∀ x ∈ texts, isNumeral x.toList = true ∨ x ∈ ["^", "+", "-", "*", "/", "(", ")"]) →
        (tokenize (" ".intercalate texts)).map (·.map Token.text) = .ok texts := by
  refine ⟨fun s => ⟨⟨?_, ?_⟩, ?_, ?_, ?_, fun f => scan_eq_error_iff⟩,
    fun texts known => tokenize_intercalate known⟩
  · rintro ⟨ts, read⟩
    obtain ⟨ps, layout, split, -⟩ := scan_eq_ok_iff.mp read
    exact ⟨ps, layout, split⟩
  · rintro ⟨ps, layout, split⟩
    exact ⟨_, scan_eq_ok_iff.mpr ⟨ps, layout, split, rfl⟩⟩
  · intro ps layout split
    exact scan_eq_ok_iff.mpr ⟨ps, layout, split, rfl⟩
  · intro ps qs layoutP layoutQ splitP splitQ
    exact layoutP.spaced_inj layoutQ (splitP.symm.trans splitQ)
  · intro ts read
    obtain ⟨ps, layout, split, rfl⟩ := scan_eq_ok_iff.mp read
    apply String.ext
    rw [String.toList_join, String.toList_ofList, split, filter_spaced layout, List.map_map,
      List.flatMap_map]
    rfl

end AgentLab.Calc
