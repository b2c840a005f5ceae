import Mathlib.Data.List.TakeWhile
import Mathlib.Tactic.Common
import MonkeyLang.Token.Scan

/-!
# Lexemes

What the tokens of a text look like, and how to put text together so that given tokens are read
from it.

* `TokenKind.text` is the text of the kinds that have only one, and `Token.sign` the token of such
  a kind;
* `IsName` and `IsNumeral` are the texts of identifiers and of integer literals;
* `Token.IsLexeme` says that kind and text of a token fit; every token of a text is a lexeme
  (`isLexeme_of_mem_scan`), and no lexeme is the end of a text;
* `EndsWord` is what must follow a word or numeral for it to be read as a whole; `scan_word`,
  `scan_numeral`, `scan_quote`, `scan_mark` and `scan_equality` read one token from the front of a
  text.
-/

namespace MonkeyLang

/-- The text of the tokens of a kind that has only one text. -/
def TokenKind.text : TokenKind → String
  | .function => "fn"
  | .let => "let"
  | .true => "true"
  | .false => "false"
  | .if => "if"
  | .else => "else"
  | .return => "return"
  | kind => kind.display

/-- All tokens of a kind have the same text. -/
def TokenKind.IsSign (kind : TokenKind) : Prop :=
  kind ∉ [.illegal, .eof, .ident, .int, .string]

instance (kind : TokenKind) : Decidable kind.IsSign :=
  inferInstanceAs (Decidable (kind ∉ _))

/-- The token of a kind that has only one text. -/
def Token.sign (kind : TokenKind) : Token := ⟨kind, kind.text⟩

@[simp] theorem Token.sign_kind (kind : TokenKind) : (Token.sign kind).kind = kind := rfl

@[simp] theorem Token.sign_literal (kind : TokenKind) : (Token.sign kind).literal = kind.text := rfl

@[simp] theorem Token.eof_kind : Token.eof.kind = .eof := rfl

/-- The text of an identifier: letters, and no keyword. -/
def IsName (text : String) : Prop :=
  text.toList ≠ [] ∧ (∀ c ∈ text.toList, isLetter c) ∧ TokenKind.ofWord text = .ident

/-- The text of an integer literal: digits. -/
def IsNumeral (text : String) : Prop :=
  text.toList ≠ [] ∧ ∀ c ∈ text.toList, isDigit c

/-- The kind of a token fits its text. -/
def Token.IsLexeme (t : Token) : Prop :=
  match t.kind with
  | .eof => False
  | .illegal | .string => True
  | .ident => IsName t.literal
  | .int => IsNumeral t.literal
  | kind => t.literal = kind.text

namespace Token

theorem IsLexeme.kind_ne_eof {t : Token} (h : t.IsLexeme) : t.kind ≠ .eof := by
  intro hk
  rw [IsLexeme, hk] at h
  exact h

theorem IsLexeme.eq_sign {t : Token} (h : t.IsLexeme) (hk : t.kind.IsSign) : t = sign t.kind := by
  obtain ⟨kind, literal⟩ := t
  cases kind <;> simp_all [IsLexeme, sign, TokenKind.IsSign]

theorem IsLexeme.isName {t : Token} (h : t.IsLexeme) (hk : t.kind = .ident) : IsName t.literal := by
  rwa [IsLexeme, hk] at h

theorem IsLexeme.isNumeral {t : Token} (h : t.IsLexeme) (hk : t.kind = .int) :
    IsNumeral t.literal := by
  rwa [IsLexeme, hk] at h

theorem isLexeme_sign {kind : TokenKind} (h : kind.IsSign) : (sign kind).IsLexeme := by
  cases kind <;> simp_all [IsLexeme, sign, TokenKind.IsSign]

end Token

/-! ### The tokens of a text -/

/-- A word is a keyword, which is the text of its kind, or an identifier. -/
theorem TokenKind.ofWord_cases (word : String) :
    TokenKind.ofWord word = .ident ∨
      (TokenKind.ofWord word).IsSign ∧ word = (TokenKind.ofWord word).text := by
  unfold TokenKind.ofWord
  split_ifs <;> simp_all [TokenKind.IsSign, TokenKind.text]

theorem TokenKind.ofChar_cases (c : Char) :
    TokenKind.ofChar c = .illegal ∨
      (TokenKind.ofChar c).IsSign ∧ String.ofList [c] = (TokenKind.ofChar c).text := by
  unfold TokenKind.ofChar
  split <;> simp [TokenKind.IsSign, TokenKind.text, TokenKind.display]

/-- The token that a character starts is a lexeme. -/
theorem Token.isLexeme_ofLead (c : Char) (rest : List Char) : (ofLead c rest).1.IsLexeme := by
  unfold ofLead
  split_ifs with hequals hbang hquote hletter hdigit
  · unfold ofOperator
    split <;> rfl
  · unfold ofOperator
    split <;> rfl
  · trivial
  · -- a word, which is a keyword or an identifier
    have hletters : ∀ d ∈ c :: rest.takeWhile isLetter, isLetter d := by
      intro d hd
      rcases List.mem_cons.1 hd with rfl | hd
      · exact hletter
      · exact List.mem_takeWhile_imp hd
    rcases TokenKind.ofWord_cases (String.ofList (c :: rest.takeWhile isLetter)) with h | ⟨hs, ht⟩
    · simp only [IsLexeme, h]
      exact ⟨by simp, by simpa using hletters, h⟩
    · have hsign := isLexeme_sign hs
      rwa [sign, ← ht] at hsign
  · -- a numeral
    refine ⟨by simp, ?_⟩
    intro d hd
    rw [String.toList_ofList] at hd
    rcases List.mem_cons.1 hd with rfl | hd
    · exact hdigit
    · exact List.mem_takeWhile_imp hd
  · rcases TokenKind.ofChar_cases c with h | ⟨hs, ht⟩
    · simp only [IsLexeme, h]
    · have hsign := isLexeme_sign hs
      rwa [sign, ← ht] at hsign

/-- **Every token of a text is a lexeme.** -/
theorem isLexeme_of_mem_scan {text : List Char} {t : Token} (ht : t ∈ scan text) :
    t.IsLexeme := by
  fun_induction scan text with
  | case1 text h => simp at ht
  | case2 text first rest h ih =>
    rcases List.mem_cons.1 ht with rfl | ht
    · unfold Token.next? at h
      split at h
      · simp at h
      · next c tail _ =>
        simp only [Option.some.injEq] at h
        have hlead := Token.isLexeme_ofLead c tail
        rwa [h] at hlead
    · exact ih ht

/-- All tokens of a list are lexemes. -/
def Lexical (ts : List Token) : Prop :=
  ∀ t ∈ ts, t.IsLexeme

theorem lexical_scan (text : List Char) : Lexical (scan text) :=
  fun _ => isLexeme_of_mem_scan

theorem Lexical.suffix {ts us : List Token} (h : Lexical ts) (hus : us <:+ ts) : Lexical us :=
  fun t ht => h t (hus.subset ht)

theorem Lexical.tail {ts : List Token} (h : Lexical ts) : Lexical ts.tail :=
  h.suffix (List.tail_suffix ts)

theorem Lexical.behind {ts us vs : List Token} (h : Lexical ts) (hts : ts = us ++ vs) :
    Lexical vs :=
  h.suffix (hts ▸ List.suffix_append us vs)

/-! ### Reading one token -/

/-- A word or a numeral ends where a text like this one begins. -/
def EndsWord (text : List Char) : Prop :=
  ∀ c ∈ text.head?, isLetter c = false ∧ isDigit c = false

theorem endsWord_nil : EndsWord [] := by
  simp [EndsWord]

theorem endsWord_cons {c : Char} {text : List Char} :
    EndsWord (c :: text) ↔ isLetter c = false ∧ isDigit c = false := by
  simp [EndsWord]

/-- A character that is no space starts a token. -/
theorem scan_cons {c : Char} (hc : isSpace c = false) (rest : List Char) :
    scan (c :: rest) = (Token.ofLead c rest).1 :: scan (Token.ofLead c rest).2 := by
  apply scan_of_next?_eq_some
  simp [Token.next?, hc]

/-- Space is skipped. -/
theorem scan_space {c : Char} (hc : isSpace c) (rest : List Char) :
    scan (c :: rest) = scan rest := by
  have hnext : Token.next? (c :: rest) = Token.next? rest := by
    simp [Token.next?, hc]
  cases h : Token.next? rest with
  | none => rw [scan_of_next?_eq_none h, scan_of_next?_eq_none (hnext.trans h)]
  | some p =>
    obtain ⟨t, tail⟩ := p
    rw [scan_of_next?_eq_some h, scan_of_next?_eq_some (hnext.trans h)]

@[simp] theorem scan_nil : scan [] = [] :=
  scan_of_next?_eq_none rfl

theorem takeWhile_append_of_endsWord {p : Char → Bool} (hp : ∀ c, p c → isLetter c ∨ isDigit c)
    {word rest : List Char} (hw : ∀ c ∈ word, p c) (hr : EndsWord rest) :
    (word ++ rest).takeWhile p = word ∧ (word ++ rest).dropWhile p = rest := by
  have hrest : rest.takeWhile p = [] ∧ rest.dropWhile p = rest := by
    cases rest with
    | nil => simp
    | cons c rest =>
      obtain ⟨hl, hd⟩ := endsWord_cons.1 hr
      have hc : p c = false := by
        by_contra h
        rcases hp c (by simpa using h) with h | h <;> simp_all
      simp [hc]
  rw [List.takeWhile_append_of_pos hw, List.dropWhile_append_of_pos hw, hrest.1, hrest.2]
  simp

theorem isSpace_of_isLetter {c : Char} (h : isLetter c) : isSpace c = false := by
  by_contra hs
  simp only [Bool.not_eq_false, isSpace, Bool.or_eq_true, decide_eq_true_eq] at hs
  rcases hs with ((rfl | rfl) | rfl) | rfl <;> exact absurd h (by decide)

theorem isSpace_of_isDigit {c : Char} (h : isDigit c) : isSpace c = false := by
  by_contra hs
  simp only [Bool.not_eq_false, isSpace, Bool.or_eq_true, decide_eq_true_eq] at hs
  rcases hs with ((rfl | rfl) | rfl) | rfl <;> exact absurd h (by decide)

theorem isLetter_of_isDigit {c : Char} (h : isDigit c) : isLetter c = false := by
  simp only [isDigit, Bool.and_eq_true, decide_eq_true_eq] at h
  have hupper : ¬ 'A' ≤ c := fun hc => absurd (Char.le_trans hc h.2) (by decide)
  have hlower : ¬ 'a' ≤ c := fun hc => absurd (Char.le_trans hc h.2) (by decide)
  have hunderscore : c ≠ '_' := fun hc => absurd (hc ▸ h.2) (by decide)
  simp [isLetter, hupper, hlower, hunderscore]

/-- A word is read as a whole if it is followed by what ends words. -/
theorem scan_word {word : String} (hne : word.toList ≠ []) (hw : ∀ c ∈ word.toList, isLetter c)
    {rest : List Char} (hr : EndsWord rest) :
    scan (word.toList ++ rest) = ⟨.ofWord word, word⟩ :: scan rest := by
  obtain ⟨c, cs, hcs⟩ := List.exists_cons_of_ne_nil hne
  rw [hcs] at hw
  have hc : isLetter c := hw c (by simp)
  have hbreak := takeWhile_append_of_endsWord (fun d hd => Or.inl hd)
    (fun d hd => hw d (List.mem_cons_of_mem c hd)) hr
  have hlead : Token.ofLead c (cs ++ rest) = (⟨.ofWord word, word⟩, rest) := by
    have hword : String.ofList (c :: cs) = word := by rw [← hcs, String.ofList_toList]
    have hops : c ≠ '=' ∧ c ≠ '!' ∧ c ≠ '"' := by
      refine ⟨?_, ?_, ?_⟩ <;> rintro rfl <;> exact absurd hc (by decide)
    simp [Token.ofLead, hops, hc, hbreak, hword]
  rw [hcs, List.cons_append, scan_cons (isSpace_of_isLetter hc), hlead]

/-- The kinds of token that are words and no identifiers. -/
def TokenKind.IsKeyword (kind : TokenKind) : Prop :=
  kind ∈ [.function, .let, .true, .false, .if, .else, .return]

/-- A keyword is read as a token of its own if it is followed by what ends words. -/
theorem scan_keyword {kind : TokenKind} (h : kind.IsKeyword) {rest : List Char}
    (hr : EndsWord rest) : scan (kind.text.toList ++ rest) = .sign kind :: scan rest := by
  have hword : TokenKind.ofWord kind.text = kind ∧ kind.text.toList ≠ [] ∧
      kind.text.toList.all isLetter := by
    simp only [TokenKind.IsKeyword, List.mem_cons, List.not_mem_nil, or_false] at h
    rcases h with rfl | rfl | rfl | rfl | rfl | rfl | rfl
    all_goals exact ⟨by decide, by decide, by decide⟩
  obtain ⟨hkind, hne, hletters⟩ := hword
  rw [scan_word hne (List.all_eq_true.1 hletters) hr, hkind]
  rfl

/-- A numeral is read as a whole if it is followed by what ends words. -/
theorem scan_numeral {numeral : String} (h : IsNumeral numeral) {rest : List Char}
    (hr : EndsWord rest) : scan (numeral.toList ++ rest) = ⟨.int, numeral⟩ :: scan rest := by
  obtain ⟨hne, hw⟩ := h
  obtain ⟨c, cs, hcs⟩ := List.exists_cons_of_ne_nil hne
  rw [hcs] at hw
  have hc : isDigit c := hw c (by simp)
  have hbreak := takeWhile_append_of_endsWord (fun d hd => Or.inr hd)
    (fun d hd => hw d (List.mem_cons_of_mem c hd)) hr
  have hlead : Token.ofLead c (cs ++ rest) = (⟨.int, numeral⟩, rest) := by
    have hnumeral : String.ofList (c :: cs) = numeral := by rw [← hcs, String.ofList_toList]
    have hops : c ≠ '=' ∧ c ≠ '!' ∧ c ≠ '"' := by
      refine ⟨?_, ?_, ?_⟩ <;> rintro rfl <;> exact absurd hc (by decide)
    simp [Token.ofLead, hops, hc, isLetter_of_isDigit hc, hbreak, hnumeral]
  rw [hcs, List.cons_append, scan_cons (isSpace_of_isDigit hc), hlead]

/-- What is written between quotes is read back behind the opening one, whatever follows. -/
theorem Token.ofLead_quote (value : String) (rest : List Char) :
    ofLead '"' (value.toList.flatMap Text.escape ++ '"' :: rest) = (⟨.string, value⟩, rest) := by
  simp [ofLead, Text.unquote_escape]

/-- A string literal is read as a whole, whatever follows. -/
theorem scan_quote (value : String) (rest : List Char) :
    scan (Text.quote value.toList ++ rest) = ⟨.string, value⟩ :: scan rest := by
  rw [Text.quote, List.cons_append, List.append_assoc, List.singleton_append,
    scan_cons (by decide), Token.ofLead_quote]

/-- The kinds of token that are a single character, whatever follows. -/
def TokenKind.IsMark (kind : TokenKind) : Prop :=
  kind ∈ [.plus, .minus, .asterisk, .slash, .lt, .gt, .comma, .semicolon, .colon, .lparen, .rparen,
    .lbrace, .rbrace, .lbracket, .rbracket]

instance (kind : TokenKind) : Decidable kind.IsMark :=
  inferInstanceAs (Decidable (kind ∈ _))

/-- A mark is read as a token of its own. -/
theorem scan_mark {kind : TokenKind} (h : kind.IsMark) (rest : List Char) :
    scan (kind.text.toList ++ rest) = .sign kind :: scan rest := by
  cases kind <;> first
    | exact scan_cons (by decide) rest
    | exact absurd h (by simp [TokenKind.IsMark])

theorem TokenKind.isMark_ofChar {c : Char} (h : TokenKind.ofChar c ≠ .illegal) :
    (TokenKind.ofChar c).IsMark := by
  unfold TokenKind.ofChar at h ⊢
  split <;> simp_all [TokenKind.IsMark]

theorem scan_char {c : Char} (h : TokenKind.ofChar c ≠ .illegal) (rest : List Char) :
    scan (c :: rest) = .sign (.ofChar c) :: scan rest := by
  rcases TokenKind.ofChar_cases c with hillegal | ⟨-, htext⟩
  · exact absurd hillegal h
  · have hscan := scan_mark (TokenKind.isMark_ofChar h) rest
    rwa [← htext, String.toList_ofList] at hscan

/-- The signs that an equals sign behind them could belong to are read as tokens of their own if
none follows. -/
theorem scan_equality {kind : TokenKind} (h : kind ∈ [.assign, .bang, .eq, .notEq])
    {rest : List Char} (hr : rest.head? ≠ some '=') :
    scan (kind.text.toList ++ rest) = .sign kind :: scan rest := by
  have hsingle : ∀ (first : Char) (pair single : TokenKind),
      Token.ofOperator first pair single rest = (⟨single, String.ofList [first]⟩, rest) := by
    intro first pair single
    unfold Token.ofOperator
    split
    · simp at hr
    · rfl
  simp only [List.mem_cons, List.not_mem_nil, or_false] at h
  rcases h with rfl | rfl | rfl | rfl
  · change scan ('=' :: rest) = _
    rw [scan_cons (by decide)]
    simp only [Token.ofLead, if_pos, hsingle]
    rfl
  · change scan ('!' :: rest) = _
    rw [scan_cons (by decide)]
    simp only [Token.ofLead, if_pos, hsingle]
    rfl
  · exact scan_cons (by decide) ('=' :: rest)
  · exact scan_cons (by decide) ('=' :: rest)

/-- What starts with an equals sign starts with one of two tokens. -/
theorem scan_equals (rest : List Char) :
    ∃ t us, scan ('=' :: rest) = t :: us ∧ (t.kind = .assign ∨ t.kind = .eq) := by
  refine ⟨_, _, scan_cons (by decide) rest, ?_⟩
  simp only [Token.ofLead, if_pos]
  unfold Token.ofOperator
  split
  · exact .inr rfl
  · exact .inl rfl

end MonkeyLang
