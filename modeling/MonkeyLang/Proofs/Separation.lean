import MonkeyLang.Grammar.Program
import MonkeyLang.Proofs.Tiling

/-!
# Space separates tokens

Behind space the tokens of a text are read as if the text began there, and which space it is does
not matter.  Only a string literal without a closing quote runs on, and takes in the space and all
that follows it: so the texts before the space are those that do not end with one (`EndsInString`).

`space_separates` says so in two ways: for two texts with space put between them, and for one text in
which some space that belongs to no token is replaced by other space.
-/

namespace MonkeyLang

/-- The last token of the text is a string literal that has no closing quote. -/
def EndsInString (text : List Char) : Prop :=
  ∃ s ∈ (spans text).getLast?, s.token.kind = .string ∧
    Text.isClosed (s.slice text).tail = false

/-! ### One token -/

/-- A literal with a closing quote is read in the same way, whatever stands behind it. -/
theorem Text.unquote_append_of_isClosed {text : List Char} (h : isClosed text) (more : List Char) :
    unquote (text ++ more) = ((unquote text).1, (unquote text).2 ++ more) := by
  fun_induction unquote text with
  | case1 => cases h
  | case2 c rest ih =>
    rw [isClosed] at h
    simp [unquote, ih h]
  | case3 rest => simp [unquote]
  | case4 c rest hescape hquote ih =>
    have hrest : isClosed rest := by simpa [isClosed.eq_3 c rest hescape, hquote] using h
    have hsame : ∀ d rest', c = '\\' → rest ++ more ≠ d :: rest' := by
      intro d rest' hc _
      cases rest with
      | nil => cases hrest
      | cons d rest => exact hescape d rest hc rfl
    rw [List.cons_append, unquote]
    · simp [hquote, ih hrest]
    · exact hsame

/-- A literal takes in at least the first character of the text behind its opening quote. -/
theorem Text.length_unquote_cons_le (c : Char) (rest : List Char) :
    (unquote (c :: rest)).2.length ≤ rest.length := by
  have hrest := unquote_length_le rest
  rw [unquote.eq_def]
  split
  · simp
  · next d rest' heq =>
    have hrest' := unquote_length_le rest'
    grind
  · grind

/-- A literal without a closing quote takes in at least one character of what stands behind it. -/
theorem Text.length_unquote_append_le {text : List Char} (h : isClosed text = false) (d : Char)
    (more : List Char) : (unquote (text ++ d :: more)).2.length ≤ more.length := by
  fun_induction isClosed text with
  | case1 => exact length_unquote_cons_le d more
  | case2 c rest ih => exact ih h
  | case3 c rest hescape ih =>
    obtain ⟨hquote, hrest⟩ : c ≠ '"' ∧ isClosed rest = false := by simpa using h
    by_cases hc : c = '\\'
    · -- the backslash is the last character of the text, and `d` the one that it escapes
      cases rest with
      | nil => exact hc ▸ unquote_length_le more
      | cons e rest => exact absurd rfl (hescape e rest hc)
    · rw [List.cons_append, unquote]
      · simpa [hquote] using ih hrest
      · exact fun _ _ heq => absurd heq hc

/-- Space belongs to none of the tokens that it stands behind. -/
theorem endsWord_of_isSpace {d : Char} (hd : isSpace d) (more : List Char) :
    EndsWord (d :: more) ∧ (d :: more).head? ≠ some '=' := by
  have hletter : isLetter d = false := by
    by_contra h
    exact absurd hd (by simp [isSpace_of_isLetter (by simpa using h)])
  have hdigit : isDigit d = false := by
    by_contra h
    exact absurd hd (by simp [isSpace_of_isDigit (by simpa using h)])
  refine ⟨endsWord_cons.2 ⟨hletter, hdigit⟩, ?_⟩
  rw [List.head?_cons, Ne, Option.some.injEq]
  rintro rfl
  exact absurd hd (by decide)

/-- A token is read in the same way if space stands behind its text, unless it is a string literal
that has no closing quote. -/
theorem Token.ofLead_append_space {c d : Char} {rest : List Char}
    (hclosed : c = '"' → Text.isClosed rest) (hd : isSpace d) (more : List Char) :
    ofLead c (rest ++ d :: more) = ((ofLead c rest).1, (ofLead c rest).2 ++ d :: more) := by
  by_cases hquote : c = '"'
  · simp [ofLead, hquote, Text.unquote_append_of_isClosed (hclosed hquote)]
  · obtain ⟨hends, hhead⟩ := endsWord_of_isSpace hd more
    exact ofLead_append fun _ => ⟨hquote, hends, hhead⟩

/-- A token that is read in the same way with more behind it is read from the same text. -/
theorem Token.eq_append_of_ofLead_append {c : Char} {body rest more : List Char}
    (hrest : rest = body ++ (ofLead c rest).2)
    (hlead : ofLead c (rest ++ more) = ((ofLead c rest).1, (ofLead c rest).2 ++ more)) :
    rest ++ more = body ++ (ofLead c (rest ++ more)).2 := by
  rw [hlead, ← List.append_assoc, ← hrest]

/-- A string literal starts with a quote. -/
theorem Token.eq_quote_of_kind {c : Char} {rest : List Char}
    (h : (ofLead c rest).1.kind = .string) : c = '"' := by
  by_contra hquote
  unfold ofLead ofOperator at h
  split_ifs at h
  · split at h <;> cases h
  · split at h <;> cases h
  · exact TokenKind.ofWord_ne_string _ h
  · exact TokenKind.ofChar_ne_string c h

/-! ### All tokens -/

/-- The last of some spans of a text is no string literal, or it has a closing quote. -/
def LastIsClosed (text : List Char) (found : List Span) : Prop :=
  ∀ s ∈ found.getLast?, s.token.kind = .string → Text.isClosed (s.slice text).tail

theorem lastIsClosed_cons {text : List Char} {s : Span} {found : List Span} :
    LastIsClosed text (s :: found) ↔
      (found = [] → s.token.kind = .string → Text.isClosed (s.slice text).tail) ∧
        LastIsClosed text found := by
  cases found with
  | nil => simp [LastIsClosed]
  | cons s' found => simp [LastIsClosed, List.getLast?_cons_cons]

theorem lastIsClosed_spans {text : List Char} (h : ¬ EndsInString text) :
    LastIsClosed text (spans text) := by
  intro s hs hkind
  by_contra hclosed
  exact h ⟨s, hs, hkind, by simpa using hclosed⟩

theorem scan_spaces {space : List Char} (h : ∀ c ∈ space, isSpace c) (rest : List Char) :
    scan (space ++ rest) = scan rest := by
  induction space with
  | nil => rfl
  | cons c space ih =>
    rw [List.cons_append, scan_space (h c List.mem_cons_self),
      ih fun d hd => h d (List.mem_cons_of_mem c hd)]

section

variable {offset : Nat} {text whole : List Char} {d : Char}

/-- Pieces in front of space are read in the same way, whatever the space and what is behind it. -/
theorem pieces_append_space (hwhole : whole.drop offset = text)
    (hlast : LastIsClosed whole (spansFrom offset text)) (hd : isSpace d) (more : List Char) :
    pieces (text ++ d :: more) = pieces text ++ pieces more := by
  induction text using scan_induction generalizing offset with
  | nil => rw [List.nil_append, pieces_space hd, pieces_nil, List.nil_append]
  | space c rest hc ih =>
    rw [spansFrom_space hc] at hlast
    rw [List.cons_append, pieces_space hc, pieces_space hc, ih (drop_succ hwhole) hlast]
  | token c rest hc ih =>
    obtain ⟨body, hrest, -⟩ := Token.exists_piece hc rest
    have hpiece : whole.drop offset = (c :: body) ++ (Token.ofLead c rest).2 :=
      hwhole.trans (congrArg (c :: ·) hrest)
    rw [spansFrom_token hc _ hrest, lastIsClosed_cons, slice_of_drop_eq hpiece, List.tail_cons]
      at hlast
    have hlead : Token.ofLead c (rest ++ d :: more) =
        ((Token.ofLead c rest).1, (Token.ofLead c rest).2 ++ d :: more) := by
      by_cases hnil : (Token.ofLead c rest).2 = []
      · -- the text ends with this token, which therefore has its closing quote if it is a string
        refine Token.ofLead_append_space (fun hquote => ?_) hd more
        have hclosed := hlast.1 (by rw [hnil, spansFrom_nil]) (by simp [Token.ofLead, hquote])
        rwa [hrest, hnil, List.append_nil]
      · exact Token.ofLead_append fun h => absurd h hnil
    have hrest' := Token.eq_append_of_ofLead_append hrest hlead
    rw [List.cons_append, pieces_token hc hrest', pieces_token hc hrest, hlead, List.cons_append,
      ih (drop_behind hpiece) hlast.2]

/-- Tokens in front of space are read in the same way, whatever the space and what is behind it. -/
theorem scan_append_space (hwhole : whole.drop offset = text)
    (hlast : LastIsClosed whole (spansFrom offset text)) (hd : isSpace d) (more : List Char) :
    scan (text ++ d :: more) = scan text ++ scan more := by
  rw [← map_fst_pieces, pieces_append_space hwhole hlast hd more, List.map_append, map_fst_pieces,
    map_fst_pieces]

/-- A literal without a closing quote goes on over the character behind it, so that its span covers
that. -/
theorem exists_span_over_space {c : Char} {rest : List Char} (hc : isSpace c = false)
    (hkind : (Token.ofLead c rest).1.kind = .string) (hopen : Text.isClosed rest = false)
    (offset : Nat) (d : Char) (more : List Char) :
    ∃ s ∈ spansFrom offset (c :: rest ++ d :: more),
      s.start ≤ offset + (c :: rest).length ∧ offset + (c :: rest).length < s.stop := by
  obtain rfl := Token.eq_quote_of_kind hkind
  obtain ⟨body, hrest, -⟩ := Token.exists_piece hc (rest ++ d :: more)
  rw [List.cons_append, spansFrom_token hc _ hrest]
  refine ⟨_, List.mem_cons_self, by simp, ?_⟩
  have hshort : (Token.ofLead '"' (rest ++ d :: more)).2.length ≤ more.length :=
    Text.length_unquote_append_le hopen d more
  have hlength := congrArg List.length hrest
  simp only [List.length_append, List.length_cons] at hlength ⊢
  omega

/-- Where space that stands behind a text belongs to no token, the text does not end in a string
literal without a closing quote. -/
theorem lastIsClosed_of_uncovered (hwhole : whole.drop offset = text) {more : List Char}
    (hgap : ∀ s ∈ spansFrom offset (text ++ d :: more),
      ¬ (s.start ≤ offset + text.length ∧ offset + text.length < s.stop)) :
    LastIsClosed whole (spansFrom offset text) := by
  induction text using scan_induction generalizing offset with
  | nil => simp [LastIsClosed]
  | space c rest hc ih =>
    have hlength : offset + (c :: rest).length = offset + 1 + rest.length := by
      rw [List.length_cons]
      omega
    rw [List.cons_append, spansFrom_space hc, hlength] at hgap
    rw [spansFrom_space hc]
    exact ih (drop_succ hwhole) hgap
  | token c rest hc ih =>
    obtain ⟨body, hrest, hpiece⟩ := Token.exists_piece hc rest
    replace hwhole : whole.drop offset = (c :: body) ++ (Token.ofLead c rest).2 :=
      hwhole.trans (congrArg (c :: ·) hrest)
    rw [spansFrom_token hc _ hrest, lastIsClosed_cons, slice_of_drop_eq hwhole, List.tail_cons]
    constructor
    · intro _ hkind
      by_contra hopen
      rw [Bool.not_eq_true] at hopen
      rw [hpiece.closes hkind hopen, List.append_nil] at hrest
      subst hrest
      obtain ⟨s, hs, hcovers⟩ := exists_span_over_space hc hkind hopen offset d more
      exact hgap s hs hcovers
    · by_cases hnil : (Token.ofLead c rest).2 = []
      · rw [hnil, spansFrom_nil]
        simp [LastIsClosed]
      · refine ih (drop_behind hwhole) ?_
        have hlead : Token.ofLead c (rest ++ d :: more) =
            ((Token.ofLead c rest).1, (Token.ofLead c rest).2 ++ d :: more) :=
          Token.ofLead_append fun h => absurd h hnil
        have hrest' := Token.eq_append_of_ofLead_append hrest hlead
        have hlength : offset + (c :: rest).length =
            offset + (c :: body).length + (Token.ofLead c rest).2.length := by
          have hlength := congrArg List.length hrest
          simp only [List.length_append, List.length_cons] at hlength ⊢
          omega
        rw [List.cons_append, spansFrom_token hc _ hrest', hlead, hlength] at hgap
        exact fun s hs => hgap s (List.mem_cons_of_mem _ hs)

end

/-- **Space separates tokens.**  The tokens of two texts with space between them are the tokens of
the one and those of the other, unless the first ends in a string literal without a closing quote.
Space that belongs to no token may be replaced by other space: the tokens, the program and the
diagnostics stay the same. -/
theorem space_separates {first space second : List Char} (hne : space ≠ [])
    (hspace : ∀ c ∈ space, isSpace c) :
    (¬ EndsInString first →
      tokens (first ++ space ++ second) = (tokens first).dropLast ++ tokens second) ∧
    ((∀ s ∈ spans (first ++ space ++ second),
        s.stop ≤ first.length ∨ (first ++ space).length ≤ s.start) →
      ∀ space' ≠ [], (∀ c ∈ space', isSpace c) →
        tokens (first ++ space' ++ second) = tokens (first ++ space ++ second) ∧
          parse (first ++ space' ++ second) = parse (first ++ space ++ second)) := by
  have hscan {space : List Char} (hlast : LastIsClosed first (spans first)) (hne : space ≠ [])
      (hspace : ∀ c ∈ space, isSpace c) :
      scan (first ++ space ++ second) = scan first ++ scan second := by
    obtain ⟨d, ds, rfl⟩ := List.exists_cons_of_ne_nil hne
    rw [List.append_assoc, List.cons_append,
      scan_append_space List.drop_zero hlast (hspace d List.mem_cons_self),
      scan_spaces fun c hc => hspace c (List.mem_cons_of_mem d hc)]
  refine ⟨fun hopen => ?_, fun hgap space' hne' hspace' => ?_⟩
  · rw [tokens, hscan (lastIsClosed_spans hopen) hne hspace, tokens, List.dropLast_concat, tokens,
      List.append_assoc]
  · have hlast : LastIsClosed first (spans first) := by
      obtain ⟨d, ds, rfl⟩ := List.exists_cons_of_ne_nil hne
      have hfree : ∀ s ∈ spansFrom 0 (first ++ d :: (ds ++ second)),
          ¬ (s.start ≤ 0 + first.length ∧ 0 + first.length < s.stop) := by
        intro s hs
        rw [← List.cons_append, ← List.append_assoc] at hs
        have houtside := hgap s hs
        simp only [List.length_append, List.length_cons] at houtside
        omega
      exact lastIsClosed_of_uncovered List.drop_zero hfree
    have hsame : scan (first ++ space' ++ second) = scan (first ++ space ++ second) := by
      rw [hscan hlast hne' hspace', hscan hlast hne hspace]
    rw [tokens, tokens, parse, parse, hsame]
    exact ⟨rfl, rfl⟩

/-- A literal with an escaped quote in it is closed by the quote behind that one. -/
theorem space_separates_quote :
    ['\n'] ≠ [] ∧ (∀ c ∈ ['\n'], isSpace c) ∧ ¬ EndsInString ['"', '\\', '"', '"'] ∧
      tokens (['"', '\\', '"', '"'] ++ ['\n'] ++ ['=']) =
        (tokens ['"', '\\', '"', '"']).dropLast ++ tokens ['='] ∧
      (∀ s ∈ spans (['"', '\\', '"', '"'] ++ ['\n'] ++ ['=']), s.stop ≤ 4 ∨ 5 ≤ s.start) ∧
      parse (['"', '\\', '"', '"'] ++ [' ', '\t'] ++ ['=']) =
        parse (['"', '\\', '"', '"'] ++ ['\n'] ++ ['=']) := by
  have hliteral : spans ['"', '\\', '"', '"'] = [⟨⟨.string, "\""⟩, 0, 4⟩] := by
    rw [spans, spansFrom_token (by decide) ['\\', '"', '"'] rfl]
    exact congrArg _ (spansFrom_nil _)
  have hwhole : spans ['"', '\\', '"', '"', '\n', '='] =
      [⟨⟨.string, "\""⟩, 0, 4⟩, ⟨⟨.assign, "="⟩, 5, 6⟩] := by
    rw [spans, spansFrom_token (by decide) ['\\', '"', '"'] rfl]
    have hbehind : spansFrom 4 ['\n', '='] = [⟨⟨.assign, "="⟩, 5, 6⟩] := by
      rw [spansFrom_space (by decide), spansFrom_token (by decide) [] rfl]
      exact congrArg _ (spansFrom_nil _)
    exact congrArg _ hbehind
  have hspace : ∀ c ∈ ['\n'], isSpace c := List.forall_mem_singleton.2 rfl
  have hopen : ¬ EndsInString ['"', '\\', '"', '"'] := by
    rintro ⟨s, hs, -, hclosed⟩
    rw [hliteral] at hs
    obtain rfl : _ = s := by simpa using hs
    exact absurd hclosed (by decide)
  have hgap : ∀ s ∈ spans (['"', '\\', '"', '"'] ++ ['\n'] ++ ['=']), s.stop ≤ 4 ∨ 5 ≤ s.start := by
    change ∀ s ∈ spans ['"', '\\', '"', '"', '\n', '='], s.stop ≤ 4 ∨ 5 ≤ s.start
    rw [hwhole]
    decide
  have hseparates := @space_separates ['"', '\\', '"', '"'] ['\n'] ['=']
    (List.cons_ne_nil '\n' []) hspace
  have hspace' : ∀ c ∈ [' ', '\t'], isSpace c :=
    List.forall_mem_cons.2 ⟨rfl, List.forall_mem_singleton.2 rfl⟩
  exact ⟨List.cons_ne_nil _ _, hspace, hopen, hseparates.1 hopen, hgap,
    (hseparates.2 hgap [' ', '\t'] (List.cons_ne_nil _ _) hspace').2⟩

end MonkeyLang
