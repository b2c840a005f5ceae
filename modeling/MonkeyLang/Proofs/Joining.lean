import MonkeyLang.Console.Entry
import MonkeyLang.Interpret
import MonkeyLang.Proofs.Separation

/-!
# Tokens that come together

The characters that are taken out of entries go without leaving a mark, and one of them, the
carriage return, separates tokens.  Where it alone stood between two of them, the second comes to
stand right behind the first.  That does no harm unless the first goes on with what the second
begins with, as a word does with a letter (`Console.StaysApart`).

* `Token.ofLead_append_of_ends`: a token is read in the same way, whatever stands behind it that it
  does not go on with; and `Token.extendedBy_eq_false` is the converse;
* `Console.scan_normalize_iff` follows the tokens of a text, one after the other;
* `Console.normalize_keeps_tokens` says exactly when the tokens of an entry are kept.
-/

namespace MonkeyLang

namespace Token

variable {c : Char} {rest body more : List Char}

/-! ### The text of one token -/

/-- Behind its first character, a token that is no string literal has letters, digits or an equals
sign. -/
theorem of_mem_body (hquote : c ≠ '"') (hrest : rest = body ++ (ofLead c rest).2) {d : Char}
    (hd : d ∈ body) : d = '=' ∨ isLetter d ∨ isDigit d := by
  have hrun {p : Char → Bool} (h : rest = body ++ rest.dropWhile p) : p d := by
    have hbody : rest.takeWhile p = body :=
      List.append_cancel_right ((List.takeWhile_append_dropWhile (l := rest)).trans h)
    exact List.mem_takeWhile_imp (hbody ▸ hd)
  have hsign {first : Char} {pair single : TokenKind}
      (h : rest = body ++ (ofOperator first pair single rest).2) : d = '=' := by
    unfold ofOperator at h
    split at h
    · obtain rfl : ['='] = body := List.append_cancel_right h
      exact List.mem_singleton.1 hd
    · obtain rfl : body = [] := List.self_eq_append_left.1 h
      cases hd
  unfold ofLead at hrest
  split_ifs at hrest
  · exact .inl (hsign hrest)
  · exact .inl (hsign hrest)
  · exact .inr (.inl (hrun hrest))
  · exact .inr (.inr (hrun hrest))
  · obtain rfl : body = [] := List.self_eq_append_left.1 hrest
    cases hd

/-- In the text of a token that is no string literal, a character that is no equals sign, letter or
digit can only be the first one. -/
theorem notMem_piece (hquote : c ≠ '"') (hrest : rest = body ++ (ofLead c rest).2) {d : Char}
    (hne : d ≠ c) (hd : ¬ (d = '=' ∨ isLetter d ∨ isDigit d)) : d ∉ c :: body := by
  rw [List.mem_cons, not_or]
  exact ⟨hne, fun hmem => hd (of_mem_body hquote hrest hmem)⟩

theorem ofOperator_append_of_ends {first : Char} {pair single : TokenKind}
    (hsingle : ∀ literal d, extendedBy ⟨single, literal⟩ d = decide (d = '='))
    (hrest : rest = body ++ (ofOperator first pair single rest).2)
    (hends : ∀ d ∈ more.head?, (ofOperator first pair single rest).1.extendedBy d = false) :
    ofOperator first pair single (body ++ more) =
      ((ofOperator first pair single rest).1, more) := by
  unfold ofOperator at hrest hends ⊢
  split at hrest
  · obtain rfl : ['='] = body := List.append_cancel_right hrest
    rfl
  · next tail hne =>
    obtain rfl : body = [] := List.self_eq_append_left.1 hrest
    simp only [hsingle, decide_eq_false_iff_not] at hends
    cases more with
    | nil => simp
    | cons d more =>
      have hd : d ≠ '=' := hends d rfl
      simp [hd]

/-- A run of characters of one class ends where one of another class stands. -/
theorem break_append_of_ends {p : Char → Bool} {run : List Char} (hrun : ∀ d ∈ run, p d)
    (hends : ∀ d ∈ more.head?, p d = false) :
    (run ++ more).takeWhile p = run ∧ (run ++ more).dropWhile p = more := by
  rw [List.takeWhile_append_of_pos hrun, List.dropWhile_append_of_pos hrun]
  cases more with
  | nil => simp
  | cons d more =>
    have hd : p d = false := hends d rfl
    simp [hd]

/-- **A token is read in the same way, whatever stands behind it that it does not go on with.**
Only a string literal without a closing quote goes on with everything. -/
theorem ofLead_append_of_ends (hrest : rest = body ++ (ofLead c rest).2)
    (hends : ∀ d ∈ more.head?, (ofLead c rest).1.extendedBy d = false)
    (hopen : c = '"' → Text.isClosed body = false → more = []) :
    ofLead c (body ++ more) = ((ofLead c rest).1, more) := by
  have hrun {p : Char → Bool} (h : rest = body ++ rest.dropWhile p) : rest.takeWhile p = body :=
    List.append_cancel_right ((List.takeWhile_append_dropWhile (l := rest)).trans h)
  unfold ofLead at hrest hends ⊢
  split_ifs at hrest hends ⊢ with hequals hbang hquote hletter hdigit
  · exact ofOperator_append_of_ends (fun _ _ => rfl) hrest hends
  · exact ofOperator_append_of_ends (fun _ _ => rfl) hrest hends
  · obtain ⟨body', hrest', hbody, -⟩ := Text.exists_unquote rest
    obtain rfl : body = body' := List.append_cancel_right (hrest.symm.trans hrest')
    by_cases hclosed : Text.isClosed body
    · rw [Text.unquote_append_of_isClosed hclosed, hbody, List.nil_append]
    · rw [hopen hquote (by simpa using hclosed), List.append_nil, hbody]
  · obtain rfl := hrun hrest
    simp only [extendedBy_ofWord] at hends
    obtain ⟨htake, hdrop⟩ := break_append_of_ends (fun d => List.mem_takeWhile_imp) hends
    rw [htake, hdrop]
  · obtain rfl := hrun hrest
    obtain ⟨htake, hdrop⟩ :=
      break_append_of_ends (p := isDigit) (fun d => List.mem_takeWhile_imp) hends
    rw [htake, hdrop]
  · obtain rfl : body = [] := List.self_eq_append_left.1 hrest
    rfl

/-- A token that is still the same does not go on with what stands behind it. -/
theorem extendedBy_eq_false (hc : isSpace c = false) (hrest : rest = body ++ (ofLead c rest).2)
    (hsame : (ofLead c (body ++ more)).1 = (ofLead c rest).1) :
    ∀ d ∈ more.head?, (ofLead c rest).1.extendedBy d = false := by
  obtain ⟨body₁, hbody₁, hpiece₁⟩ := exists_piece hc rest
  obtain ⟨body₂, hbody₂, hpiece₂⟩ := exists_piece hc (body ++ more)
  obtain rfl : body = body₁ := List.append_cancel_right (hrest.symm.trans hbody₁)
  rw [hsame] at hpiece₂
  intro d hd
  by_cases hkind : (ofLead c rest).1.kind = .string
  · simp [extendedBy, hkind]
  · -- both are read from the text of the literal, so that the same stands behind both
    have hpieces : c :: body = c :: body₂ :=
      (hpiece₁.literal hkind).trans (hpiece₂.literal hkind).symm
    obtain rfl : body = body₂ := (List.cons.inj hpieces).2
    have hmore : more = (ofLead c (body ++ more)).2 := List.append_cancel_left hbody₂
    exact hpiece₂.ends d (hmore ▸ hd)

end Token

namespace Console

/-! ### Entries without their carriage returns -/

/-- No token goes on with the character that comes to stand behind it. -/
def StaysApart (text : List Char) : Prop :=
  ∀ s ∈ spans text, ∀ d ∈ (normalize (text.drop s.stop)).head?, s.token.extendedBy d = false

instance (text : List Char) : Decidable (StaysApart text) :=
  decidable_of_iff ((spans text).all fun s =>
    (normalize (text.drop s.stop)).head?.all fun d => !s.token.extendedBy d) (by
      simp [StaysApart, Option.all_eq_true])

theorem normalize_cons_of_visible {c : Char} (hc : isInvisible c = false) (rest : List Char) :
    normalize (c :: rest) = c :: normalize rest :=
  List.filter_cons_of_pos (by simpa using hc)

theorem normalize_cons_of_invisible {c : Char} (hc : isInvisible c) (rest : List Char) :
    normalize (c :: rest) = normalize rest :=
  List.filter_cons_of_neg (by simpa using hc)

theorem normalize_append (first second : List Char) :
    normalize (first ++ second) = normalize first ++ normalize second :=
  List.filter_append ..

/-- Characters that are left where they are. -/
theorem normalize_eq_self {text : List Char} (h : ∀ c ∈ text, isInvisible c → c = '\r')
    (hreturn : '\r' ∉ text) : normalize text = text := by
  refine List.filter_eq_self.2 fun c hc => ?_
  by_contra hinvisible
  obtain rfl := h c hc (by simpa using hinvisible)
  exact hreturn hc

/-- Without its carriage returns, none of which is part of a token, a text has the same tokens
exactly if none of its tokens goes on with the character that comes to stand behind it. -/
theorem scan_normalize_iff {offset : Nat} {text whole : List Char}
    (hwhole : whole.drop offset = text) (honly : ∀ c ∈ text, isInvisible c → c = '\r')
    (hstring : ∀ s ∈ spansFrom offset text, s.token.kind = .string → '\r' ∉ s.slice whole) :
    scan (normalize text) = scan text ↔
      ∀ s ∈ spansFrom offset text, ∀ d ∈ (normalize (whole.drop s.stop)).head?,
        s.token.extendedBy d = false := by
  induction text using scan_induction generalizing offset with
  | nil => simp [normalize]
  | space c rest hc ih =>
    rw [List.forall_mem_cons] at honly
    rw [spansFrom_space hc] at hstring ⊢
    rw [← ih (drop_succ hwhole) honly.2 hstring, scan_space hc]
    cases hinvisible : isInvisible c with
    | true => rw [normalize_cons_of_invisible hinvisible]
    | false => rw [normalize_cons_of_visible hinvisible, scan_space hc]
  | token c rest hc ih =>
    obtain ⟨body, hrest, hpiece⟩ := Token.exists_piece hc rest
    have hsplit : c :: rest = (c :: body) ++ (Token.ofLead c rest).2 := congrArg (c :: ·) hrest
    replace hwhole := hwhole.trans hsplit
    rw [spansFrom_token hc _ hrest, List.forall_mem_cons, slice_of_drop_eq hwhole] at hstring
    rw [hsplit, List.forall_mem_append] at honly
    have hreturn : '\r' ∉ c :: body := by
      by_cases hquote : c = '"'
      · exact hstring.1 (by simp [Token.ofLead, hquote])
      · have hne : '\r' ≠ c := by
          rintro rfl
          exact absurd hc (by decide)
        exact Token.notMem_piece hquote hrest hne (by decide)
    have hnormal : normalize (c :: rest) = c :: (body ++ normalize (Token.ofLead c rest).2) := by
      rw [hsplit, normalize_append, normalize_eq_self honly.1 hreturn, List.cons_append]
    have hopen : c = '"' → Text.isClosed body = false → normalize (Token.ofLead c rest).2 = [] :=
      fun hquote hclosed => by rw [hpiece.closes (by simp [Token.ofLead, hquote]) hclosed]; rfl
    have hbehind := ih (drop_behind hwhole) honly.2 hstring.2
    rw [spansFrom_token hc _ hrest, List.forall_mem_cons, drop_behind hwhole, hnormal, scan_cons hc,
      scan_cons hc]
    constructor
    · intro h
      obtain ⟨hfirst, hothers⟩ := List.cons.inj h
      have hends := Token.extendedBy_eq_false hc hrest hfirst
      rw [Token.ofLead_append_of_ends hrest hends hopen] at hothers
      exact ⟨hends, hbehind.1 hothers⟩
    · rintro ⟨hends, hothers⟩
      rw [Token.ofLead_append_of_ends hrest hends hopen, hbehind.2 hothers]

/-- **When an entry keeps its tokens.**  Let carriage returns be all that is taken out of a text,
and let them be outside of string literals.  Then the tokens stay the same if and only if no token
goes on with the character that comes to stand behind it; and if they do, the entry is the same
program as the text, and interpreting the one is interpreting the other. -/
theorem normalize_keeps_tokens {text : List Char} (honly : ∀ c ∈ text, isInvisible c → c = '\r')
    (hstring : ∀ s ∈ spans text, s.token.kind = .string → '\r' ∉ s.slice text) :
    (tokens (normalize text) = tokens text ↔ StaysApart text) ∧
      (StaysApart text → parse (normalize text) = parse text ∧
        ∀ depth frame store, interpret depth frame (String.ofList (normalize text)) store =
          interpret depth frame (String.ofList text) store) := by
  have hscan : scan (normalize text) = scan text ↔ StaysApart text :=
    scan_normalize_iff List.drop_zero honly hstring
  refine ⟨by rw [← hscan, tokens, tokens, List.append_left_inj], fun hapart => ?_⟩
  have hparse : parse (normalize text) = parse text := by rw [parse, parse, hscan.2 hapart]
  refine ⟨hparse, fun depth frame store => ?_⟩
  have hread : readProgram (String.ofList (normalize text)) = readProgram (String.ofList text) := by
    simp only [readProgram, read, String.toList_ofList, hparse]
  rw [interpret, interpret, hread]

/-- Carriage returns in front of newlines, behind a keyword, and between two signs that do not
belong together. -/
theorem normalize_keeps_tokens_lines :
    let text := "let\r x =\r1;\r\nx ==\r=\r\"a\"\r".toList
    (∀ c ∈ text, isInvisible c → c = '\r') ∧
      (∀ s ∈ spans text, s.token.kind = .string → '\r' ∉ s.slice text) ∧ StaysApart text ∧
      tokens (normalize text) = tokens text ∧ parse (normalize text) = parse text ∧
      ∀ depth frame store, interpret depth frame (String.ofList (normalize text)) store =
        interpret depth frame (String.ofList text) store := by
  intro text
  have hreturns : text.all fun c => isInvisible c → c = '\r' := by decide +kernel
  have honly : ∀ c ∈ text, isInvisible c → c = '\r' :=
    fun c hc => of_decide_eq_true (List.all_eq_true.1 hreturns c hc)
  have hstring : ∀ s ∈ spans text, s.token.kind = .string → '\r' ∉ s.slice text := by
    decide +kernel
  have hapart : StaysApart text := by decide +kernel
  obtain ⟨htokens, hprogram⟩ := normalize_keeps_tokens honly hstring
  exact ⟨honly, hstring, hapart, htokens.2 hapart, hprogram hapart⟩

/-- A carriage return is all that keeps these two numbers apart: in the entry they are one. -/
theorem normalize_joins_numbers :
    let text := ['1', '\r', '2']
    (∀ c ∈ text, isInvisible c → c = '\r') ∧
      (∀ s ∈ spans text, s.token.kind = .string → '\r' ∉ s.slice text) ∧
      tokens (normalize text) ≠ tokens text := by
  have hreturns : ['1', '\r', '2'].all fun c => isInvisible c → c = '\r' := by decide
  exact ⟨fun c hc => of_decide_eq_true (List.all_eq_true.1 hreturns c hc), by decide +kernel⟩

end Console

end MonkeyLang
