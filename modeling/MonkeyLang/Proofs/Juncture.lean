import MonkeyLang.Proofs.Lexeme

/-!
# Texts put together

The tokens of two texts that stand one behind the other are the tokens of the one and then those of
the other, if no token runs across the place where they meet:

* `scan_append_semicolon`: when a semicolon stands there, and no string literal is open;
* `scan_append_of_getLast?`: when a semicolon is the last token of the first text.

A token may run across only if it uses up its text to the end (`Token.ofLead_append`).
-/

namespace MonkeyLang

/-! ### One token -/

/-- A literal that is closed is read in the same way, whatever stands behind it. -/
theorem Text.unquote_append {text : List Char} (h : (unquote text).2 ≠ []) (more : List Char) :
    unquote (text ++ more) = ((unquote text).1, (unquote text).2 ++ more) := by
  fun_induction unquote text with
  | case1 => exact absurd rfl h
  | case2 c rest ih => simp [unquote, ih h]
  | case3 rest => simp [unquote]
  | case4 c rest hescape hquote ih =>
    have hsame : c = '\\' → ∀ d rest', rest ++ more ≠ d :: rest' := by
      intro hc d rest' _
      -- a backslash at the end of the text escapes nothing, and closes no literal
      cases rest with
      | nil => exact absurd rfl h
      | cons d rest => exact hescape d rest hc rfl
    rw [List.cons_append, unquote]
    · simp [hquote, ih h]
    · exact fun d rest' hc => hsame hc d rest'

/-- A character of a literal that neither closes it nor escapes another one stands for itself. -/
theorem Text.unquote_cons_of_plain {c : Char} (hquote : c ≠ '"') {rest : List Char}
    (hescape : c = '\\' → rest = []) :
    unquote (c :: rest) = (c :: (unquote rest).1, (unquote rest).2) := by
  rw [unquote, if_neg hquote]
  intro d rest' hc hrest
  rw [hescape hc] at hrest
  cases hrest

/-- The text behind a literal is the end of the text that it was read from. -/
theorem Text.unquote_suffix (text : List Char) : (unquote text).2 <:+ text := by
  fun_induction unquote text with
  | case1 => exact List.suffix_rfl
  | case2 c rest ih => exact (ih.trans (List.suffix_cons c rest)).trans (List.suffix_cons _ _)
  | case3 rest => exact List.suffix_cons _ rest
  | case4 c rest _ _ ih => exact ih.trans (List.suffix_cons c rest)

namespace Token

variable {c : Char} {rest more : List Char}

theorem ofOperator_append {pair single : TokenKind}
    (h : (ofOperator c pair single rest).2 = [] → more.head? ≠ some '=') :
    ofOperator c pair single (rest ++ more) =
      ((ofOperator c pair single rest).1, (ofOperator c pair single rest).2 ++ more) := by
  cases rest with
  | nil =>
    have hmore := h rfl
    cases more with
    | nil => rfl
    | cons d more =>
      have hd : d ≠ '=' := by simpa using hmore
      simp [ofOperator, hd]
  | cons d rest =>
    by_cases hd : d = '='
    · subst hd
      rfl
    · simp [ofOperator, hd]

/-- A word or numeral is read to the same place if that is not the end of the text, or if what
stands behind does not belong to it either. -/
theorem break_append {p : Char → Bool} (hp : ∀ d, p d → isLetter d ∨ isDigit d)
    (h : rest.dropWhile p = [] → EndsWord more) :
    (rest ++ more).takeWhile p = rest.takeWhile p ∧
      (rest ++ more).dropWhile p = rest.dropWhile p ++ more := by
  by_cases hnil : rest.dropWhile p = []
  · have hall := List.dropWhile_eq_nil_iff.1 hnil
    rw [hnil, List.takeWhile_eq_self_iff.2 hall]
    exact takeWhile_append_of_endsWord hp hall (h hnil)
  · have hshort : (rest.takeWhile p).length ≠ rest.length := by
      intro hlength
      have hsplit := congrArg List.length (List.takeWhile_append_dropWhile (p := p) (l := rest))
      simp only [List.length_append, hlength] at hsplit
      exact hnil (List.eq_nil_of_length_eq_zero (by omega))
    rw [List.takeWhile_append, if_neg hshort, List.dropWhile_append, if_neg (by simpa using hnil)]
    exact ⟨rfl, rfl⟩

/-- A token that ends before its text does, or that nothing behind can belong to, is read in the
same way whatever stands behind. -/
theorem ofLead_append
    (h : (ofLead c rest).2 = [] → c ≠ '"' ∧ EndsWord more ∧ more.head? ≠ some '=') :
    ofLead c (rest ++ more) = ((ofLead c rest).1, (ofLead c rest).2 ++ more) := by
  unfold ofLead at h ⊢
  split_ifs at h ⊢ with hequals hbang hquote hletter hdigit
  · exact ofOperator_append fun hnil => (h hnil).2.2
  · exact ofOperator_append fun hnil => (h hnil).2.2
  · have hclosed : (Text.unquote rest).2 ≠ [] := fun hnil => (h hnil).1 hquote
    simp [Text.unquote_append hclosed]
  · obtain ⟨htake, hdrop⟩ := break_append (fun d hd => Or.inl hd) fun hnil => (h hnil).2.1
    simp [htake, hdrop]
  · obtain ⟨htake, hdrop⟩ := break_append (fun d hd => Or.inr hd) fun hnil => (h hnil).2.1
    simp [htake, hdrop]
  · rfl

/-- The text behind a token is the end of the text that it was read from. -/
theorem ofLead_suffix (c : Char) (rest : List Char) : (ofLead c rest).2 <:+ rest := by
  have hoperator : ∀ pair single, (ofOperator c pair single rest).2 <:+ rest := by
    intro pair single
    unfold ofOperator
    split
    · exact List.suffix_cons _ _
    · exact List.suffix_rfl
  unfold ofLead
  split_ifs with hequals hbang
  · exact hequals ▸ hoperator _ _
  · exact hbang ▸ hoperator _ _
  · exact Text.unquote_suffix rest
  · exact List.dropWhile_suffix isLetter
  · exact List.dropWhile_suffix isDigit
  · exact List.suffix_rfl

/-- A mark is started by its one character, and the text behind it is what follows that. -/
theorem ofLead_of_isMark (h : (ofLead c rest).1.kind.IsMark) :
    TokenKind.ofChar c = (ofLead c rest).1.kind ∧ (ofLead c rest).2 = rest := by
  have hoperator : ∀ first pair single, ¬ pair.IsMark → ¬ single.IsMark →
      ¬ (ofOperator first pair single rest).1.kind.IsMark := by
    intro first pair single hpair hsingle
    unfold ofOperator
    split
    · exact hpair
    · exact hsingle
  have hword : ∀ word, ¬ (TokenKind.ofWord word).IsMark := by
    intro word
    unfold TokenKind.ofWord
    split_ifs <;> simp [TokenKind.IsMark]
  by_cases hequals : c = '='
  · exact absurd h (by simpa [ofLead, hequals] using hoperator _ _ _ (by decide) (by decide))
  by_cases hbang : c = '!'
  · exact absurd h (by simpa [ofLead, hbang] using hoperator _ _ _ (by decide) (by decide))
  by_cases hquote : c = '"'
  · exact absurd h (by simp [ofLead, hquote, TokenKind.IsMark])
  by_cases hletter : isLetter c
  · exact absurd h (by simpa [ofLead, hequals, hbang, hquote, hletter] using hword _)
  by_cases hdigit : isDigit c
  · exact absurd h (by simp [ofLead, hequals, hbang, hquote, hletter, hdigit, TokenKind.IsMark])
  simp [ofLead, hequals, hbang, hquote, hletter, hdigit]

end Token

/-! ### All tokens -/

/-- A text is empty, starts with space, or starts with a token. -/
theorem scan_induction {motive : List Char → Prop} (nil : motive [])
    (space : ∀ c rest, isSpace c → motive rest → motive (c :: rest))
    (token : ∀ c rest, isSpace c = false → motive (Token.ofLead c rest).2 → motive (c :: rest))
    (text : List Char) : motive text := by
  induction hlength : text.length using Nat.strong_induction_on generalizing text with
  | _ length ih =>
    subst hlength
    cases text with
    | nil => exact nil
    | cons c rest =>
      have hrest := Token.ofLead_length_le c rest
      cases hc : isSpace c with
      | true => exact space c rest hc (ih _ (by simp) rest rfl)
      | false => exact token c rest hc (ih _ (by simp only [List.length_cons]; omega) _ rfl)

/-- A text without opening braces has no tokens of that kind. -/
theorem kind_ne_lbrace_of_mem_scan {text : List Char} (h : '\x7b' ∉ text) {t : Token}
    (ht : t ∈ scan text) : t.kind ≠ .lbrace := by
  induction text using scan_induction with
  | nil => simp at ht
  | space c rest hc ih =>
    rw [scan_space hc] at ht
    exact ih (fun hmem => h (List.mem_cons_of_mem c hmem)) ht
  | token c rest hc ih =>
    rw [scan_cons hc] at ht
    rcases List.mem_cons.1 ht with rfl | ht
    · intro hkind
      have hchar := (Token.ofLead_of_isMark (by rw [hkind]; decide)).1.trans hkind
      have hbrace : c = '\x7b' := by
        unfold TokenKind.ofChar at hchar
        split at hchar <;> simp_all
      exact h (by simp [hbrace])
    · have hsuffix := Token.ofLead_suffix c rest
      exact ih (fun hmem => h (List.mem_cons_of_mem c (hsuffix.subset hmem))) ht

/-- A semicolon stands between the tokens before it and those behind it, unless it is in a string
literal. -/
theorem scan_append_semicolon {text : List Char} (h : '"' ∉ text) (more : List Char) :
    scan (text ++ ';' :: more) = scan text ++ .sign .semicolon :: scan more := by
  induction text using scan_induction with
  | nil =>
    rw [scan_nil]
    exact scan_char (by decide) more
  | space c rest hc ih =>
    rw [List.cons_append, scan_space hc, scan_space hc]
    exact ih fun hmem => h (List.mem_cons_of_mem c hmem)
  | token c rest hc ih =>
    have hquote : c ≠ '"' := fun heq => h (by simp [heq])
    have hends : EndsWord (';' :: more) := endsWord_cons.2 (by decide)
    have hlead : Token.ofLead c (rest ++ ';' :: more) = _ :=
      Token.ofLead_append fun _ => ⟨hquote, hends, by simp⟩
    have hsuffix := Token.ofLead_suffix c rest
    rw [List.cons_append, scan_cons hc, scan_cons hc, hlead, List.cons_append,
      ih fun hmem => h (List.mem_cons_of_mem c (hsuffix.subset hmem))]

/-- A text without tokens is skipped. -/
theorem scan_append_of_nil {text : List Char} (h : scan text = []) (more : List Char) :
    scan (text ++ more) = scan more := by
  induction text using scan_induction with
  | nil => rfl
  | space c rest hc ih =>
    rw [scan_space hc] at h
    rw [List.cons_append, scan_space hc, ih h]
  | token c rest hc ih => simp [scan_cons hc] at h

/-- Tokens that end with a semicolon are read in the same way, whatever stands behind them. -/
theorem scan_append_of_getLast? {text : List Char}
    (h : (scan text).getLast? = some (.sign .semicolon)) (more : List Char) :
    scan (text ++ more) = scan text ++ scan more := by
  induction text using scan_induction with
  | nil => simp at h
  | space c rest hc ih =>
    rw [scan_space hc] at h ⊢
    rw [List.cons_append, scan_space hc, ih h]
  | token c rest hc ih =>
    rw [scan_cons hc] at h ⊢
    by_cases hlast : scan (Token.ofLead c rest).2 = []
    · -- the semicolon itself, with nothing but space behind it
      have hlead : (Token.ofLead c rest).1 = .sign .semicolon := by simpa [hlast] using h
      obtain ⟨hchar, hrest⟩ := Token.ofLead_of_isMark (by rw [hlead]; decide)
      rw [hlead] at hchar
      rw [hrest] at hlast
      rw [List.cons_append, scan_char (by rw [hchar]; decide), hchar, hlead, hrest,
        scan_append_of_nil hlast, hlast]
      rfl
    · have hopen : (Token.ofLead c rest).2 ≠ [] := fun hnil => hlast (by rw [hnil, scan_nil])
      have hlead : Token.ofLead c (rest ++ more) = _ :=
        Token.ofLead_append fun hnil => absurd hnil hopen
      have htail : (scan (Token.ofLead c rest).2).getLast? = some (.sign .semicolon) := by
        rw [List.getLast?_cons] at h
        rw [List.getLast?_eq_some_getLast hlast] at h ⊢
        exact h
      rw [List.cons_append, scan_cons hc, hlead, List.cons_append, ih htail]

end MonkeyLang
