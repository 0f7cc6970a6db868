import AgentLab.Proofs.Scanning
/-!
Progress of the scanner. Each pass of `scan`'s loop skips blanks and reads one token, and no
character of a token is blank; so every pass moves on, past at least one character that is not
blank. The loop therefore makes no more passes than the text has such characters, and then stops:
at the end of the text with the tokens it read, or at a place where no token starts, refusing the
rest. No text keeps it going, blanks alone or blanks at the end included.
-/

namespace AgentLab.Calc

/-- The scanning loop, started on the text `cs`, reads the tokens `ts`, one each pass, and is left
with the text `rest`. A pass skips the blanks in front and reads the token that follows them. -/
inductive Reads : List Char → List Token → List Char → Prop
  | stop (cs : List Char) : Reads cs [] cs
  | pass {cs rest more : List Char} {t : Token} {ts : List Token} :
      lexeme? (cs.dropWhile Text.isBlank) = some (t, rest) → Reads rest ts more →
        Reads cs (t :: ts) more

/-! ## One pass -/

section Pass

variable {cs rest : List Char} {t : Token}

theorem pass_split (found : lexeme? (cs.dropWhile Text.isBlank) = some (t, rest)) :
    cs = cs.takeWhile Text.isBlank ++ t.text.toList ++ rest ∧ t.Valid := by
  obtain ⟨valid, chars, -⟩ := lexeme?_eq_some_iff.mp found
  refine ⟨?_, valid⟩
  rw [List.append_assoc, ← chars, List.takeWhile_append_dropWhile]

theorem countP_pass (found : lexeme? (cs.dropWhile Text.isBlank) = some (t, rest)) :
    cs.countP (fun c => !Text.isBlank c) =
      t.text.toList.length + rest.countP (fun c => !Text.isBlank c) := by
  obtain ⟨split, valid⟩ := pass_split found
  have blanks : (cs.takeWhile Text.isBlank).countP (fun c => !Text.isBlank c) = 0 :=
    List.countP_eq_zero.mpr fun c member => by simp [List.mem_takeWhile_imp member]
  have solid : t.text.toList.countP (fun c => !Text.isBlank c) = t.text.toList.length :=
    List.countP_eq_length.mpr fun c member => by simp [Token.text_not_blank valid c member]
  conv_lhs => rw [split]
  rw [List.countP_append, List.countP_append, blanks, solid, Nat.zero_add]

theorem countP_lt_pass (found : lexeme? (cs.dropWhile Text.isBlank) = some (t, rest)) :
    rest.countP (fun c => !Text.isBlank c) < cs.countP (fun c => !Text.isBlank c) := by
  obtain ⟨c, more, text, -⟩ := Token.text_head (pass_split found).2
  have read := countP_pass found
  rw [text, List.length_cons] at read
  omega

theorem length_lt_pass (found : lexeme? (cs.dropWhile Text.isBlank) = some (t, rest)) :
    rest.length < cs.length :=
  Nat.lt_of_lt_of_le (lexeme?_length found) (List.dropWhile_suffix Text.isBlank).length_le

end Pass

/-! ## Runs of the loop -/

section Run

variable {cs rest : List Char} {ts : List Token}

theorem Reads.scan_eq (reads : Reads cs ts rest) : scan cs = (scan rest).map (ts ++ ·) := by
  induction reads with
  | stop cs => cases scan cs <;> rfl
  | pass found _ ih =>
    rw [scan_cons found, ih]
    cases scan _ <;> rfl

theorem Reads.length_add_le (reads : Reads cs ts rest) :
    ts.length + rest.countP (fun c => !Text.isBlank c) ≤ cs.countP (fun c => !Text.isBlank c) := by
  induction reads with
  | stop cs => simp
  | pass found _ ih =>
    have step := countP_lt_pass found
    rw [List.length_cons]
    omega

theorem exists_reads (cs : List Char) : ∃ ts rest, Reads cs ts rest ∧
    (rest = [] ∨ rest ≠ [] ∧ lexeme? (rest.dropWhile Text.isBlank) = none) := by
  induction cs using scan.induct with
  | case1 cs empty => exact ⟨[], cs, .stop cs, .inl (List.isEmpty_iff.mp empty)⟩
  | case2 cs nonempty absent =>
    refine ⟨[], cs, .stop cs, .inr ⟨fun empty => ?_, absent⟩⟩
    rw [empty] at nonempty
    exact nonempty rfl
  | case3 cs _ t more found _ ih =>
    obtain ⟨ts, rest, reads, stop⟩ := ih
    exact ⟨t :: ts, rest, .pass found reads, stop⟩

end Run

/-- Every pass of the scanning loop moves on, past at least one character that is not blank; so on
any text the loop makes at most as many passes as the text has characters that are not blank, and
then stops, with the tokens it read at the end of the text, or refusing the rest where no token
starts. -/
theorem tokenize_passes_bounded (s : String) :
    (∀ (cs : List Char) (t : Token) (rest : List Char),
      lexeme? (cs.dropWhile Text.isBlank) = some (t, rest) →
      rest.length < cs.length ∧
        rest.countP (fun c => !Text.isBlank c) < cs.countP (fun c => !Text.isBlank c)) ∧
    (∀ ts rest, Reads s.toList ts rest →
      ts.length ≤ s.toList.countP (fun c => !Text.isBlank c)) ∧
    ∃ ts rest, Reads s.toList ts rest ∧
      (rest = [] ∧ tokenize s = .ok ts ∨
        rest ≠ [] ∧ lexeme? (rest.dropWhile Text.isBlank) = none ∧
          tokenize s = .error ⟨String.ofList rest⟩) := by
  refine ⟨fun cs t rest found => ⟨length_lt_pass found, countP_lt_pass found⟩,
    fun ts rest reads => ?_, ?_⟩
  · have bound := reads.length_add_le
    omega
  · obtain ⟨ts, rest, reads, stop⟩ := exists_reads s.toList
    have run : tokenize s = (scan rest).map (ts ++ ·) := reads.scan_eq
    refine ⟨ts, rest, reads, ?_⟩
    rcases stop with rfl | ⟨nonempty, absent⟩
    · refine .inl ⟨rfl, ?_⟩
      rw [run, scan_nil]
      show Except.ok (ts ++ []) = _
      rw [List.append_nil]
    · refine .inr ⟨nonempty, absent, ?_⟩
      rw [run, scan_stuck nonempty (lexeme?_eq_none_iff.mp absent)]
      rfl

end AgentLab.Calc
