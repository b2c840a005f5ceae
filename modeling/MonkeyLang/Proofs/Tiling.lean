import MonkeyLang.Proofs.Juncture
import MonkeyLang.Token.Span

/-!
# Spans tile a text

The spans of a text cut it into the texts of its tokens, with nothing but space between them.

* `Token.extendedBy` tells whether a token goes on with a character behind it, and
  `Text.isClosed` whether a string literal has a closing quote;
* `Token.IsPiece` says what the text of one token is like, and `Token.exists_piece` that every
  token is read from such a text;
* `Tiled` puts pieces and space together in the order of the text.  The facts about all spans of a
  text are inductions on it;
* `pieces` lists the tokens of a text with the texts that they are read from.  These do not depend
  on where they stand;
* `Tiles` lists what `spans_tile` proves of the spans of every text.
-/

namespace MonkeyLang

/-! ### The text of one token -/

/-- Tells, of the text behind an opening quote, whether there is a quote in it that closes the
literal. -/
def Text.isClosed : List Char → Bool
  | [] => false
  | '\\' :: _ :: rest => isClosed rest
  | c :: rest => c = '"' || isClosed rest

/-- Tells whether the token goes on with the character, if that stands behind it. -/
def Token.extendedBy (t : Token) (c : Char) : Bool :=
  match t.kind with
  | .ident | .function | .let | .true | .false | .if | .else | .return => isLetter c
  | .int => isDigit c
  | .assign | .bang => c = '='
  | _ => false

/-- A token and the text it was read from, with the text that stood behind it. -/
structure Token.IsPiece (t : Token) (piece rest : List Char) : Prop where
  ne_nil : piece ≠ []
  scan_eq : scan piece = [t]
  literal : t.kind ≠ .string → piece = t.literal.toList
  ends : ∀ c ∈ rest.head?, t.extendedBy c = false
  closes : t.kind = .string → Text.isClosed piece.tail = false → rest = []

theorem Token.extendedBy_ofWord (word literal : String) (c : Char) :
    Token.extendedBy ⟨.ofWord word, literal⟩ c = isLetter c := by
  unfold TokenKind.ofWord
  split_ifs <;> rfl

theorem Token.extendedBy_ofChar (first : Char) (literal : String) (c : Char) :
    Token.extendedBy ⟨.ofChar first, literal⟩ c = false := by
  unfold TokenKind.ofChar
  split <;> rfl

theorem TokenKind.ofWord_ne_string (word : String) : TokenKind.ofWord word ≠ .string := by
  unfold TokenKind.ofWord
  split_ifs <;> simp

theorem TokenKind.ofChar_ne_string (c : Char) : TokenKind.ofChar c ≠ .string := by
  unfold TokenKind.ofChar
  split <;> simp

/-- The text of a string literal, read alone, is the literal; and it has a closing quote if it does
not go to the end. -/
theorem Text.exists_unquote (text : List Char) :
    ∃ body, text = body ++ (unquote text).2 ∧ unquote body = ((unquote text).1, []) ∧
      (isClosed body = false → (unquote text).2 = []) := by
  fun_induction unquote text with
  | case1 => exact ⟨[], rfl, rfl, fun _ => rfl⟩
  | case2 c rest ih =>
    obtain ⟨body, htext, hbody, hclosed⟩ := ih
    exact ⟨'\\' :: c :: body, by simpa using htext, by simp [unquote, hbody],
      by simpa [isClosed] using hclosed⟩
  | case3 rest => exact ⟨['"'], rfl, by simp [unquote], by simp [isClosed]⟩
  | case4 c rest hescape hquote ih =>
    obtain ⟨body, htext, hbody, hclosed⟩ := ih
    -- a backslash stands alone only at the end of the text
    have hnil : c = '\\' → body = [] := by
      intro hc
      cases rest with
      | nil => exact (List.append_eq_nil_iff.1 htext.symm).1
      | cons d rest => exact absurd rfl (hescape d rest hc)
    refine ⟨c :: body, by simpa using htext, ?_, ?_⟩
    · rw [unquote]
      · simp [hquote, hbody]
      · exact fun d rest' hc hrest => by simp [hnil hc] at hrest
    · rw [isClosed]
      · simpa [hquote] using hclosed
      · exact fun d rest' hc hrest => by simp [hnil hc] at hrest

/-- The text of an operator is its sign, and it takes an equals sign that follows. -/
theorem Token.exists_piece_ofOperator {first : Char} (pair single : TokenKind) (rest : List Char)
    (hscan : ∀ {body : List Char} {t : Token}, ofOperator first pair single body = (t, []) →
      scan (first :: body) = [t])
    (hpair : ∀ literal c, extendedBy ⟨pair, literal⟩ c = false)
    (hsingle : ∀ literal c, extendedBy ⟨single, literal⟩ c = decide (c = '='))
    (hstring : pair ≠ .string ∧ single ≠ .string) :
    ∃ body, rest = body ++ (ofOperator first pair single rest).2 ∧
      (ofOperator first pair single rest).1.IsPiece (first :: body)
        (ofOperator first pair single rest).2 := by
  unfold ofOperator
  split
  · exact ⟨['='], rfl, List.cons_ne_nil _ _, hscan rfl, fun _ => by simp, fun c _ => hpair _ c,
      fun h => absurd h hstring.1⟩
  · next hrest =>
    refine ⟨[], rfl, List.cons_ne_nil _ _, hscan rfl, fun _ => by simp, fun c hc => ?_,
      fun h => absurd h hstring.2⟩
    obtain ⟨tail, rfl⟩ := List.head?_eq_some_iff.1 hc
    rw [hsingle, decide_eq_false_iff_not]
    rintro rfl
    exact hrest tail rfl

/-- A run of characters of one class is read as a whole, and none of the class follows. -/
theorem break_takeWhile (p : Char → Bool) (rest : List Char) :
    (rest.takeWhile p).takeWhile p = rest.takeWhile p ∧ (rest.takeWhile p).dropWhile p = [] ∧
      ∀ c ∈ (rest.dropWhile p).head?, p c = false := by
  refine ⟨List.takeWhile_idem, ?_, fun c hc => ?_⟩
  · exact List.dropWhile_eq_nil_iff.2 fun c hc => List.mem_takeWhile_imp hc
  · have hhead := List.head?_dropWhile_not p rest
    rw [Option.mem_def.1 hc] at hhead
    exact hhead

/-- Every token is read from a text of its own. -/
theorem Token.exists_piece {c : Char} (hc : isSpace c = false) (rest : List Char) :
    ∃ body, rest = body ++ (ofLead c rest).2 ∧
      (ofLead c rest).1.IsPiece (c :: body) (ofLead c rest).2 := by
  have halone {body : List Char} {t : Token} (h : ofLead c body = (t, [])) :
      scan (c :: body) = [t] := by rw [scan_cons hc, h, scan_nil]
  unfold ofLead at halone ⊢
  split_ifs at halone ⊢ with hequals hbang hquote hletter hdigit
  · subst hequals
    exact exists_piece_ofOperator .eq .assign rest halone (fun _ _ => rfl) (fun _ _ => rfl)
      (by decide)
  · subst hbang
    exact exists_piece_ofOperator .notEq .bang rest halone (fun _ _ => rfl) (fun _ _ => rfl)
      (by decide)
  · obtain ⟨body, hrest, hbody, hclosed⟩ := Text.exists_unquote rest
    exact ⟨body, hrest, List.cons_ne_nil c body, halone (by rw [hbody]), absurd rfl, fun c _ => rfl,
      fun _ => hclosed⟩
  · obtain ⟨htake, hdrop, hends⟩ := break_takeWhile isLetter rest
    refine ⟨rest.takeWhile isLetter, List.takeWhile_append_dropWhile.symm, List.cons_ne_nil c _,
      halone (by rw [htake, hdrop]), fun _ => by simp, ?_, ?_⟩
    · simpa only [extendedBy_ofWord] using hends
    · exact fun hkind => absurd hkind (TokenKind.ofWord_ne_string _)
  · obtain ⟨htake, hdrop, hends⟩ := break_takeWhile isDigit rest
    exact ⟨rest.takeWhile isDigit, List.takeWhile_append_dropWhile.symm, List.cons_ne_nil c _,
      halone (by rw [htake, hdrop]), fun _ => by simp, hends, nofun⟩
  · exact ⟨[], rfl, List.cons_ne_nil c [], halone rfl, fun _ => by simp,
      fun d _ => extendedBy_ofChar c _ d,
      fun hkind => absurd hkind (TokenKind.ofChar_ne_string c)⟩

/-! ### All spans -/

@[simp] theorem spansFrom_nil (offset : Nat) : spansFrom offset [] = [] := by
  rw [spansFrom]
  rfl

theorem spansFrom_of_next? {offset : Nat} {text rest : List Char} {t : Token}
    (h : Token.next? text = some (t, rest)) :
    spansFrom offset text =
      ⟨t, offset + (text.takeWhile isSpace).length, offset + (text.length - rest.length)⟩ ::
        spansFrom (offset + (text.length - rest.length)) rest := by
  rw [spansFrom]
  split <;> simp_all

theorem spansFrom_of_next?_eq_none {text : List Char} (h : Token.next? text = none)
    (offset : Nat) : spansFrom offset text = [] := by
  rw [spansFrom]
  split <;> simp_all

/-- Space has no span. -/
theorem spansFrom_space {c : Char} (hc : isSpace c) (offset : Nat) (rest : List Char) :
    spansFrom offset (c :: rest) = spansFrom (offset + 1) rest := by
  have hnext : Token.next? (c :: rest) = Token.next? rest := by
    simp [Token.next?, hc]
  cases h : Token.next? rest with
  | none => rw [spansFrom_of_next?_eq_none h, spansFrom_of_next?_eq_none (hnext.trans h)]
  | some p =>
    obtain ⟨t, tail⟩ := p
    have hlt := Token.next?_length_lt h
    have hstart : offset + ((c :: rest).takeWhile isSpace).length =
        offset + 1 + (rest.takeWhile isSpace).length := by
      rw [List.takeWhile_cons_of_pos hc, List.length_cons]
      omega
    have hstop : offset + ((c :: rest).length - tail.length) =
        offset + 1 + (rest.length - tail.length) := by
      rw [List.length_cons]
      omega
    rw [spansFrom_of_next? h, spansFrom_of_next? (hnext.trans h), hstart, hstop]

/-- A token has a span as long as its text. -/
theorem spansFrom_token {c : Char} (hc : isSpace c = false) (body : List Char) {rest : List Char}
    (hrest : rest = body ++ (Token.ofLead c rest).2) (offset : Nat) :
    spansFrom offset (c :: rest) =
      ⟨(Token.ofLead c rest).1, offset, offset + (c :: body).length⟩ ::
        spansFrom (offset + (c :: body).length) (Token.ofLead c rest).2 := by
  have hnext : Token.next? (c :: rest) =
      some ((Token.ofLead c rest).1, (Token.ofLead c rest).2) := by
    simp [Token.next?, hc]
  have hstart : (c :: rest).takeWhile isSpace = [] :=
    List.takeWhile_cons_of_neg (by simp [hc])
  have hstop : (c :: rest).length - (Token.ofLead c rest).2.length = (c :: body).length := by
    have hlength := congrArg List.length hrest
    rw [List.length_append] at hlength
    simp only [List.length_cons]
    omega
  rw [spansFrom_of_next? hnext, hstart, hstop]
  rfl

/-- The spans of a text whose first character has the given position: pieces in the order of the
text, with space before, between and behind them. -/
inductive Tiled : Nat → List Char → List Span → Prop
  | nil {offset : Nat} : Tiled offset [] []
  | space {offset : Nat} {c : Char} {rest : List Char} {found : List Span} (hc : isSpace c)
      (hrest : Tiled (offset + 1) rest found) : Tiled offset (c :: rest) found
  | token {offset : Nat} {t : Token} {piece rest : List Char} {found : List Span}
      (hpiece : t.IsPiece piece rest) (hrest : Tiled (offset + piece.length) rest found) :
      Tiled offset (piece ++ rest) (⟨t, offset, offset + piece.length⟩ :: found)

theorem tiled_spansFrom (offset : Nat) (text : List Char) :
    Tiled offset text (spansFrom offset text) := by
  induction text using scan_induction generalizing offset with
  | nil => exact spansFrom_nil offset ▸ .nil
  | space c rest hc ih => exact spansFrom_space hc offset rest ▸ .space hc (ih (offset + 1))
  | token c rest hc ih =>
    obtain ⟨body, hrest, hpiece⟩ := Token.exists_piece hc rest
    have htiled := Tiled.token hpiece (ih (offset + (c :: body).length))
    rwa [← spansFrom_token hc body hrest, List.cons_append, ← hrest] at htiled

/-- The tokens of the spans of a text are the tokens of the text. -/
theorem map_token_spansFrom (offset : Nat) (text : List Char) :
    (spansFrom offset text).map Span.token = scan text := by
  induction text using scan_induction generalizing offset with
  | nil => simp
  | space c rest hc ih => rw [spansFrom_space hc, scan_space hc, ih]
  | token c rest hc ih =>
    obtain ⟨body, hrest, -⟩ := Token.exists_piece hc rest
    rw [spansFrom_token hc body hrest, scan_cons hc, List.map_cons, ih]

theorem drop_behind {offset : Nat} {whole piece rest : List Char}
    (hwhole : whole.drop offset = piece ++ rest) : whole.drop (offset + piece.length) = rest := by
  rw [← List.drop_drop, hwhole, List.drop_left]

theorem drop_succ {offset : Nat} {whole rest : List Char} {c : Char}
    (hwhole : whole.drop offset = c :: rest) : whole.drop (offset + 1) = rest :=
  @drop_behind offset whole [c] rest hwhole

/-- A span covers a piece of the text if it begins with it and is as long. -/
theorem slice_of_drop_eq {offset : Nat} {whole piece rest : List Char}
    (hwhole : whole.drop offset = piece ++ rest) (t : Token) :
    Span.slice ⟨t, offset, offset + piece.length⟩ whole = piece := by
  simp [Span.slice, slice, hwhole]

namespace Tiled

variable {offset : Nat} {text whole : List Char} {found : List Span}

theorem bounds (h : Tiled offset text found) {s : Span} (hs : s ∈ found) :
    offset ≤ s.start ∧ s.start < s.stop ∧ s.stop ≤ offset + text.length := by
  induction h with
  | nil => cases hs
  | space _ _ ih =>
    obtain ⟨hstart, hlt, hstop⟩ := ih hs
    exact ⟨by omega, hlt, by rw [List.length_cons]; omega⟩
  | token hpiece _ ih =>
    have hpositive := List.length_pos_iff.2 hpiece.ne_nil
    rw [List.length_append]
    rcases List.mem_cons.1 hs with rfl | hs
    · exact ⟨le_rfl, by simpa using hpositive, by simp⟩
    · obtain ⟨hstart, hlt, hstop⟩ := ih hs
      exact ⟨by omega, hlt, by omega⟩

/-- No span begins before the one in front of it ends. -/
theorem pairwise (h : Tiled offset text found) :
    found.Pairwise fun s s' => s.stop ≤ s'.start := by
  induction h with
  | nil => exact .nil
  | space _ _ ih => exact ih
  | token _ hrest ih => exact .cons (fun s hs => (hrest.bounds hs).1) ih

/-- A span covers the text of its token. -/
theorem isPiece (h : Tiled offset text found) (hwhole : whole.drop offset = text) {s : Span}
    (hs : s ∈ found) : s.token.IsPiece (s.slice whole) (whole.drop s.stop) := by
  induction h with
  | nil => cases hs
  | space _ _ ih => exact ih (drop_succ hwhole) hs
  | @token offset t piece rest found hpiece _ ih =>
    have hbehind : whole.drop (offset + piece.length) = rest := drop_behind hwhole
    rcases List.mem_cons.1 hs with rfl | hs
    · rw [slice_of_drop_eq hwhole, hbehind]
      exact hpiece
    · exact ih hbehind hs

/-- Outside of all spans there is nothing but space. -/
theorem isSpace_of_uncovered (h : Tiled offset text found) (hwhole : whole.drop offset = text)
    {i : Nat} {c : Char} (hi : offset ≤ i) (hc : whole[i]? = some c)
    (hgap : ∀ s ∈ found, ¬ (s.start ≤ i ∧ i < s.stop)) : isSpace c := by
  induction h with
  | nil =>
    have hlength := List.drop_eq_nil_iff.1 hwhole
    rw [List.getElem?_eq_none (by omega)] at hc
    cases hc
  | @space offset d rest found hd _ ih =>
    rcases Nat.eq_or_lt_of_le hi with rfl | hi
    · rw [← List.head?_drop, hwhole] at hc
      obtain rfl : d = c := by simpa using hc
      exact hd
    · exact ih (drop_succ hwhole) hi hgap
  | @token offset t piece rest found _ _ ih =>
    have houtside : ¬ (offset ≤ i ∧ i < offset + piece.length) := hgap _ List.mem_cons_self
    exact ih (drop_behind hwhole) (by omega) fun s hs => hgap s (List.mem_cons_of_mem _ hs)

end Tiled

/-! ### The pieces of a text -/

/-- The tokens of a text, each with the text that it is read from. -/
def pieces (text : List Char) : List (Token × List Char) :=
  (spans text).map fun s => (s.token, s.slice text)

/-- The pieces of a text are the same as a part of a longer one. -/
theorem map_slice_spansFrom {offset : Nat} {text whole : List Char}
    (hwhole : whole.drop offset = text) :
    (spansFrom offset text).map (fun s => (s.token, s.slice whole)) = pieces text := by
  rw [pieces, spans]
  induction text using scan_induction generalizing offset whole with
  | nil => rw [spansFrom_nil, spansFrom_nil, List.map_nil, List.map_nil]
  | space c rest hc ih =>
    have halone : (c :: rest).drop (0 + 1) = rest := rfl
    rw [spansFrom_space hc, spansFrom_space hc, ih (drop_succ hwhole), ih halone]
  | token c rest hc ih =>
    obtain ⟨body, hrest, -⟩ := Token.exists_piece hc rest
    have halone : (c :: rest).drop 0 = (c :: body) ++ (Token.ofLead c rest).2 :=
      congrArg (c :: ·) hrest
    have hpiece : whole.drop offset = (c :: body) ++ (Token.ofLead c rest).2 := hwhole.trans halone
    rw [spansFrom_token hc _ hrest, spansFrom_token hc _ hrest, List.map_cons, List.map_cons,
      slice_of_drop_eq hpiece, slice_of_drop_eq halone, ih (drop_behind hpiece),
      ih (drop_behind halone)]

@[simp] theorem pieces_nil : pieces [] = [] := by
  rw [pieces, spans, spansFrom_nil, List.map_nil]

/-- Space is no piece. -/
theorem pieces_space {c : Char} (hc : isSpace c) (rest : List Char) :
    pieces (c :: rest) = pieces rest := by
  rw [pieces, spans, spansFrom_space hc]
  exact map_slice_spansFrom rfl

theorem pieces_token {c : Char} (hc : isSpace c = false) {body rest : List Char}
    (hrest : rest = body ++ (Token.ofLead c rest).2) :
    pieces (c :: rest) =
      ((Token.ofLead c rest).1, c :: body) :: pieces (Token.ofLead c rest).2 := by
  have hwhole : (c :: rest).drop 0 = (c :: body) ++ (Token.ofLead c rest).2 :=
    congrArg (c :: ·) hrest
  rw [pieces, spans, spansFrom_token hc _ hrest, List.map_cons, slice_of_drop_eq hwhole,
    map_slice_spansFrom (drop_behind hwhole)]

/-- The tokens of the pieces of a text are the tokens of the text. -/
theorem map_fst_pieces (text : List Char) : (pieces text).map Prod.fst = scan text := by
  rw [pieces, List.map_map]
  exact map_token_spansFrom 0 text

/-- What the spans of a text are: the places of its tokens, one behind the other, with nothing but
space outside of them.  A span covers exactly what its token is read from, and as much as can belong
to it. -/
structure Tiles (text : List Char) (found : List Span) : Prop where
  tokens_eq : found.map Span.token ++ [Token.eof] = tokens text
  kind_ne_eof : ∀ s ∈ found, s.token.kind ≠ .eof
  start_lt_stop : ∀ s ∈ found, s.start < s.stop
  stop_le_length : ∀ s ∈ found, s.stop ≤ text.length
  disjoint : found.Pairwise fun s s' => s.stop ≤ s'.start
  isSpace_outside : ∀ i c, text[i]? = some c → (∀ s ∈ found, ¬ (s.start ≤ i ∧ i < s.stop)) →
    isSpace c
  tokens_slice : ∀ s ∈ found, tokens (s.slice text) = [s.token, Token.eof]
  slice_eq : ∀ s ∈ found, s.token.kind ≠ .string → s.slice text = s.token.literal.toList
  maximal : ∀ s ∈ found, ∀ c, text[s.stop]? = some c → s.token.extendedBy c = false

/-- **The spans of a text tile it.** -/
theorem spans_tile (text : List Char) : Tiles text (spans text) := by
  have htiled : Tiled 0 text (spans text) := tiled_spansFrom 0 text
  have hpiece {s : Span} (hs : s ∈ spans text) :
      s.token.IsPiece (s.slice text) (text.drop s.stop) := htiled.isPiece List.drop_zero hs
  have htokens : (spans text).map Span.token = scan text := map_token_spansFrom 0 text
  refine ⟨by rw [htokens, tokens], fun s hs => ?_, fun s hs => (htiled.bounds hs).2.1, fun s hs => ?_,
    htiled.pairwise, fun i c => htiled.isSpace_of_uncovered List.drop_zero (Nat.zero_le i),
    fun s hs => ?_, fun s hs => (hpiece hs).literal, fun s hs c hc => ?_⟩
  · have hmem : s.token ∈ scan text := htokens ▸ List.mem_map_of_mem hs
    exact (isLexeme_of_mem_scan hmem).kind_ne_eof
  · simpa using (htiled.bounds hs).2.2
  · rw [tokens, (hpiece hs).scan_eq]
    rfl
  · exact (hpiece hs).ends c (by rwa [List.head?_drop])

end MonkeyLang
