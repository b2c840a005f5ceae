import MonkeyLang.Proofs.Formed
import MonkeyLang.Proofs.Numeral
import MonkeyLang.Proofs.Tally

/-!
# Which texts are refused

Reading a text gives a program and diagnostics, unless an integer token in it has more than
`Text.maxDigits` digits; then the first such token is all that is reported (`read_eq`).

So it depends on its length what becomes of an integer literal that is too large for 64 bits.  Up
to that many digits it costs a diagnostic, and beyond that all other diagnostics are lost with it
(`read_reports_numerals`).
-/

namespace MonkeyLang

open Grammar

/-- Tells whether a token is an integer literal that has too many digits to be converted. -/
def Token.isOverlong (t : Token) : Bool :=
  t.kind = .int ∧ Text.maxDigits < t.literal.length

/-- The refusal of a text for a literal that has too many digits. -/
def Token.refusal (t : Token) : Refusal :=
  ⟨t.literal, .tooManyDigits t.literal.length⟩

/-! ### What is wrong with one token -/

/-- An integer literal has too many digits, or is too large, or nothing is wrong with it. -/
theorem Token.numeralFaults_eq {t : Token} (h : t.IsLexeme) (hkind : t.kind = .int) :
    t.numeralFaults =
      if t.isOverlong then [.refused t.refusal]
      else if maxInteger < Text.decimalValue t.literal then [.tooLarge t.literal]
      else [] := by
  have hread := Text.readInteger_of_isNumeral (h.isNumeral hkind)
  rw [String.length_toList] at hread
  rw [numeralFaults, if_pos hkind, integer, Rule.bind_apply_of_some rfl]
  simp only [Rule.current, Rule.currentOf, List.headD_cons]
  by_cases hlong : Text.maxDigits < t.literal.length
  · rw [if_pos hlong] at hread
    simp [hread, isOverlong, hkind, hlong, Rule.reject, refusal]
  · rw [if_neg hlong] at hread
    rw [if_neg (by simp [isOverlong, hlong])]
    by_cases hlarge : maxInteger < Text.decimalValue t.literal
    · simp [hread, hlarge, Rule.reject]
    · simp [hread, hlarge]

theorem Token.findSome?_numeralFaults {t : Token} (h : t.IsLexeme) :
    t.numeralFaults.findSome? Diagnostic.refusal? =
      if t.isOverlong then some t.refusal else none := by
  by_cases hkind : t.kind = .int
  · rw [numeralFaults_eq h hkind]
    split_ifs <;> rfl
  · have hnone : t.numeralFaults = [] := if_neg hkind
    rw [hnone, if_neg (by simp [isOverlong, hkind])]
    rfl

/-! ### What is wrong with a text -/

/-- Only what is wrong with an integer literal can be a refusal. -/
theorem refusalOf_filter (ds : List Diagnostic) :
    refusalOf (ds.filter Diagnostic.isOnNumeral) = refusalOf ds := by
  induction ds with
  | nil => rfl
  | cons d ds ih =>
    cases d with
    | refused refusal => rfl
    | expected | noOperand | tooLarge => exact ih

theorem refusalOf_numeralFaults {ts : List Token} (h : Lexical ts) :
    refusalOf (numeralFaults ts) = (ts.find? Token.isOverlong).map Token.refusal := by
  induction ts with
  | nil => rfl
  | cons t ts ih =>
    have hfirst := Token.findSome?_numeralFaults (h t List.mem_cons_self)
    rw [refusalOf] at ih ⊢
    rw [Rule.numeralFaults_cons, List.findSome?_append, hfirst, ih h.tail, List.find?_cons]
    cases t.isOverlong <;> rfl

/-- **Which texts are refused.**  A text is refused for its first integer token that has too many
digits, and otherwise read, whatever else is wrong with it. -/
theorem read_eq (source : String) :
    read source = match (scan source.toList).find? Token.isOverlong with
      | some t => .error t.refusal
      | none => .ok (parse source.toList) := by
  have hrefusal : refusalOf (parse source.toList).diagnostics =
      ((scan source.toList).find? Token.isOverlong).map Token.refusal := by
    rw [← refusalOf_filter, numeralFaults_parse, refusalOf_numeralFaults (lexical_scan _)]
  rw [read, hrefusal]
  cases (scan source.toList).find? Token.isOverlong <;> rfl

/-- An integer token of a text leaves its diagnostics, wherever it stands. -/
theorem subset_diagnostics_of_mem_scan {text : List Char} {t : Token} (ht : t ∈ scan text) :
    t.numeralFaults ⊆ (parse text).diagnostics := by
  intro d hd
  have hmem : d ∈ numeralFaults (scan text) := List.mem_flatMap.2 ⟨t, ht, hd⟩
  rw [← numeralFaults_parse] at hmem
  exact List.mem_of_mem_filter hmem

/-- **What becomes of integer literals.**  A text with an integer token of more than
`Text.maxDigits` digits is refused for the first of them.  From every other text a program is read,
and each of its integer tokens that is too large for 64 bits is among the diagnostics. -/
theorem read_reports_numerals (source : String) :
    match (scan source.toList).find? Token.isOverlong with
    | some t => read source = .error ⟨t.literal, .tooManyDigits t.literal.length⟩
    | none => ∃ ss ds, read source = .ok ⟨.program ss, ds⟩ ∧
        ∀ t ∈ scan source.toList, t.kind = .int → maxInteger < Text.decimalValue t.literal →
          "could not parse " ++ t.literal ++ " as integer" ∈ messages ds := by
  have hread := read_eq source
  cases hfind : (scan source.toList).find? Token.isOverlong with
  | some t =>
    rw [hfind] at hread
    exact hread
  | none =>
    rw [hfind] at hread
    obtain ⟨ss, hprogram, -⟩ := exists_formed_program source.toList
    refine ⟨ss, (parse source.toList).diagnostics, by rw [hread, ← hprogram], ?_⟩
    intro t ht hkind hlarge
    have hlong : t.isOverlong = false := by
      simpa using List.find?_eq_none.1 hfind t ht
    have hfaults := Token.numeralFaults_eq (isLexeme_of_mem_scan ht) hkind
    rw [hlong, if_neg Bool.false_ne_true, if_pos hlarge] at hfaults
    have hmem : Diagnostic.tooLarge t.literal ∈ (parse source.toList).diagnostics :=
      subset_diagnostics_of_mem_scan ht (hfaults ▸ List.mem_singleton_self _)
    exact List.mem_map_of_mem hmem

theorem isNumeral_replicate {n : Nat} (hn : n ≠ 0) :
    IsNumeral (String.ofList (List.replicate n '1')) := by
  refine ⟨by simpa using hn, fun c hc => ?_⟩
  rw [String.toList_ofList] at hc
  obtain rfl := List.eq_of_mem_replicate hc
  rfl

theorem read_replicate {n : Nat} (hn : Text.maxDigits < n) :
    read (String.ofList (List.replicate n '1')) =
      .error ⟨String.ofList (List.replicate n '1'), .tooManyDigits n⟩ := by
  have hscan := scan_numeral (isNumeral_replicate (Nat.ne_zero_of_lt hn)) endsWord_nil
  rw [List.append_nil, scan_nil] at hscan
  have hlong : Token.isOverlong ⟨.int, String.ofList (List.replicate n '1')⟩ = true := by
    simpa [Token.isOverlong] using hn
  rw [read_eq, hscan, List.find?_cons_of_pos hlong]
  simp [Token.refusal]

/-- A literal of one digit more than can be converted is not among the diagnostics. -/
theorem read_ones_refused :
    read (String.ofList (List.replicate 4301 '1')) =
      .error ⟨String.ofList (List.replicate 4301 '1'), .tooManyDigits 4301⟩ :=
  read_replicate (by decide)

end MonkeyLang
