import MonkeyLang.Proofs.Balance
import MonkeyLang.Proofs.Joining

/-!
# Entries that are judged complete

Enter judges the text as it was typed, and what is evaluated is the text without the characters that
are taken out.  The two may differ in where a string literal ends: a backslash that escaped such a
character escapes the one behind it afterwards, and if that is a quote, the literal goes on
(`Console.submitted_entry_opens`).

Nothing else can go wrong.  Outside of string literals every character counts for itself, whatever
token it belongs to (`depthBehind_scan_cons`), and those that are taken out count for nothing.  So
Enter judges rightly wherever no backslash that loses its character comes to stand in front of a
quote or of another backslash (`Console.enter_judges_rightly`).
-/

namespace MonkeyLang

open Console

/-! ### Counting by characters -/

/-- The number of open brackets behind a character outside of string literals, given the number
before it. -/
def depthAfterChar (depth : Nat) (c : Char) : Nat :=
  depthAfter depth ⟨.ofChar c, String.ofList [c]⟩

/-- A character that is taken out, or that does not stand alone as a token, counts for nothing. -/
theorem depthAfterChar_eq_self {c : Char}
    (h : c = '=' ∨ c = '!' ∨ isLetter c ∨ isDigit c ∨ isSpace c ∨ isInvisible c) (depth : Nat) :
    depthAfterChar depth c = depth := by
  have hkind : TokenKind.ofChar c = .illegal := by
    unfold TokenKind.ofChar
    split <;> first | rfl | exact absurd h (by decide)
  rw [depthAfterChar, hkind]
  rfl

section

variable (depth : Nat)

/-- A word counts for nothing. -/
theorem depthAfter_ofWord (word literal : String) :
    depthAfter depth ⟨.ofWord word, literal⟩ = depth := by
  unfold TokenKind.ofWord
  split_ifs <;> rfl

theorem depthBehind_scan_letter {c : Char} (hc : isLetter c) (rest : List Char) :
    depthBehind depth (scan (c :: rest)) = depthBehind depth (scan (rest.dropWhile isLetter)) := by
  have hsigns : c ≠ '=' ∧ c ≠ '!' ∧ c ≠ '"' := by
    refine ⟨?_, ?_, ?_⟩ <;> rintro rfl <;> exact absurd hc (by decide)
  rw [scan_cons (isSpace_of_isLetter hc)]
  simp [Token.ofLead, hsigns, hc, depthAfter_ofWord]

theorem depthBehind_scan_digit {c : Char} (hc : isDigit c) (rest : List Char) :
    depthBehind depth (scan (c :: rest)) = depthBehind depth (scan (rest.dropWhile isDigit)) := by
  have hsigns : c ≠ '=' ∧ c ≠ '!' ∧ c ≠ '"' := by
    refine ⟨?_, ?_, ?_⟩ <;> rintro rfl <;> exact absurd hc (by decide)
  rw [scan_cons (isSpace_of_isDigit hc)]
  simp [Token.ofLead, hsigns, hc, isLetter_of_isDigit hc, depthAfter]

/-- What is read as a whole counts for nothing if it does so wherever it begins. -/
theorem depthBehind_scan_dropWhile {p : Char → Bool}
    (h : ∀ {c}, p c → ∀ rest, depthBehind depth (scan (c :: rest)) =
      depthBehind depth (scan (rest.dropWhile p))) (rest : List Char) :
    depthBehind depth (scan (rest.dropWhile p)) = depthBehind depth (scan rest) := by
  cases rest with
  | nil => rfl
  | cons c rest =>
    by_cases hc : p c
    · rw [List.dropWhile_cons_of_pos hc, h hc rest]
    · rw [List.dropWhile_cons_of_neg hc]

/-- An operator counts for nothing, and an equals sign that it takes in does not count without it
either. -/
theorem depthBehind_scan_ofOperator {pair single : TokenKind}
    (hpair : ∀ literal, depthAfter depth ⟨pair, literal⟩ = depth)
    (hsingle : ∀ literal, depthAfter depth ⟨single, literal⟩ = depth) (first : Char)
    (rest : List Char) :
    depthBehind (depthAfter depth (Token.ofOperator first pair single rest).1)
        (scan (Token.ofOperator first pair single rest).2) =
      depthBehind depth (scan rest) := by
  induction rest generalizing pair single first with
  | nil => simp [Token.ofOperator, hsingle]
  | cons c rest ih =>
    by_cases hc : c = '='
    · subst hc
      have hequals : depthBehind (depthAfter depth (Token.ofOperator '=' .eq .assign rest).1)
          (scan (Token.ofOperator '=' .eq .assign rest).2) = depthBehind depth (scan rest) :=
        ih (fun _ => rfl) (fun _ => rfl) '='
      rw [scan_cons (by decide)]
      simp only [Token.ofLead, Token.ofOperator, hpair]
      exact hequals.symm
    · simp [Token.ofOperator, hc, hsingle]

/-- **Outside of string literals every character counts for itself**, whatever it is read together
with. -/
theorem depthBehind_scan_cons {c : Char} (hquote : c ≠ '"') (rest : List Char) :
    depthBehind depth (scan (c :: rest)) = depthBehind (depthAfterChar depth c) (scan rest) := by
  cases hspace : isSpace c with
  | true => rw [scan_space hspace, depthAfterChar_eq_self (by simp [hspace])]
  | false =>
    rw [scan_cons hspace, depthBehind_cons]
    unfold Token.ofLead
    split_ifs with hequals hbang hletter hdigit
    · rw [depthAfterChar_eq_self (by simp [hequals])]
      exact depthBehind_scan_ofOperator depth (fun _ => rfl) (fun _ => rfl) '=' rest
    · rw [depthAfterChar_eq_self (by simp [hbang])]
      exact depthBehind_scan_ofOperator depth (fun _ => rfl) (fun _ => rfl) '!' rest
    · rw [depthAfterChar_eq_self (by simp [hletter]), depthAfter_ofWord]
      exact depthBehind_scan_dropWhile depth (depthBehind_scan_letter depth) rest
    · rw [depthAfterChar_eq_self (by simp [hdigit])]
      exact depthBehind_scan_dropWhile depth (depthBehind_scan_digit depth) rest
    · rfl

/-- Characters without a quote among them. -/
theorem depthBehind_scan_append {text : List Char} (hquote : '"' ∉ text) (rest : List Char) :
    depthBehind depth (scan (text ++ rest)) =
      depthBehind (text.foldl depthAfterChar depth) (scan rest) := by
  induction text generalizing depth with
  | nil => rfl
  | cons c text ih =>
    rw [List.mem_cons, not_or] at hquote
    rw [List.cons_append, depthBehind_scan_cons depth (Ne.symm hquote.1), ih _ hquote.2,
      List.foldl_cons]

end

namespace Console

/-! ### String literals without the characters that are taken out -/

/-- Tells of a text behind an opening quote whether the escapes of the literal stay where they
are: a backslash whose character is taken out does not come to stand in front of a quote or of
another backslash. -/
def escapesStay : List Char → Bool
  | [] => true
  | '\\' :: c :: rest =>
    (!isInvisible c || (normalize rest).head?.all (fun d => d ≠ '"' && d ≠ '\\')) &&
      escapesStay rest
  | c :: rest => c = '"' || escapesStay rest

/-- A backslash may go in front of a character that needs none. -/
theorem unquote_backslash {rest : List Char} (h : ∀ d ∈ rest.head?, d ≠ '"' ∧ d ≠ '\\') :
    (Text.unquote ('\\' :: rest)).2 = (Text.unquote rest).2 := by
  cases rest with
  | nil => rfl
  | cons d rest =>
    obtain ⟨hquote, hbackslash⟩ := h d rfl
    rw [Text.unquote_cons_of_plain hquote (fun hd => absurd hd hbackslash), Text.unquote]

/-- **Where a literal ends** does not change if its escapes stay where they are. -/
theorem unquote_normalize {text : List Char} (h : escapesStay text) :
    (Text.unquote (normalize text)).2 = normalize (Text.unquote text).2 := by
  fun_induction Text.unquote text with
  | case1 => rfl
  | case2 c rest ih =>
    rw [escapesStay, Bool.and_eq_true] at h
    obtain ⟨hstays, hrest⟩ := h
    rw [normalize_cons_of_visible (by decide)]
    cases hc : isInvisible c with
    | false => rw [normalize_cons_of_visible hc, Text.unquote, ih hrest]
    | true =>
      have hhead : ∀ d ∈ (normalize rest).head?, d ≠ '"' ∧ d ≠ '\\' := by
        simpa [hc, Option.all_eq_true] using hstays
      rw [normalize_cons_of_invisible hc, unquote_backslash hhead, ih hrest]
  | case3 rest =>
    rw [normalize_cons_of_visible (by decide), Text.unquote, if_pos rfl]
    exact fun _ _ h => absurd h (by decide)
  | case4 c rest hescape hquote ih =>
    have hrest : escapesStay rest := by
      rw [escapesStay] at h
      · simpa [hquote] using h
      · exact hescape
    cases hc : isInvisible c with
    | true => rw [normalize_cons_of_invisible hc, ih hrest]
    | false =>
      have hlast : c = '\\' → normalize rest = [] := by
        intro hbackslash
        cases rest with
        | nil => rfl
        | cons d rest => exact (hescape d rest hbackslash rfl).elim
      rw [normalize_cons_of_visible hc, Text.unquote_cons_of_plain hquote hlast, ih hrest]

/-! ### Brackets in what is evaluated -/

/-- The characters that are taken out count for nothing. -/
theorem foldl_depthAfterChar_normalize (depth : Nat) (text : List Char) :
    (normalize text).foldl depthAfterChar depth = text.foldl depthAfterChar depth := by
  induction text generalizing depth with
  | nil => rfl
  | cons c text ih =>
    cases hc : isInvisible c with
    | true =>
      rw [normalize_cons_of_invisible hc, ih, List.foldl_cons,
        depthAfterChar_eq_self (by simp [hc])]
    | false => rw [normalize_cons_of_visible hc, List.foldl_cons, List.foldl_cons, ih]

/-- Where characters without a quote among them count for themselves, those that are taken out need
not be there. -/
theorem depthBehind_scan_normalize_append {text : List Char} (hquote : '"' ∉ text) (depth : Nat)
    (rest : List Char) :
    depthBehind depth (scan (normalize (text ++ rest))) =
      depthBehind (text.foldl depthAfterChar depth) (scan (normalize rest)) := by
  have hnormal : '"' ∉ normalize text := fun h => hquote (List.mem_filter.1 h).1
  rw [normalize_append, depthBehind_scan_append depth hnormal, foldl_depthAfterChar_normalize]

/-- The escapes of all string literals stay where they are. -/
def LiteralsStay (text : List Char) : Prop :=
  ∀ s ∈ spans text, s.token.kind = .string → escapesStay (text.drop (s.start + 1))

instance (text : List Char) : Decidable (LiteralsStay text) :=
  inferInstanceAs (Decidable (∀ s ∈ spans text, _ → _))

/-- As many brackets are open behind a text without the characters that are taken out, if the
escapes of its string literals stay where they are. -/
theorem depthBehind_scan_normalize {offset : Nat} {text whole : List Char}
    (hwhole : whole.drop offset = text)
    (hstay : ∀ s ∈ spansFrom offset text, s.token.kind = .string →
      escapesStay (whole.drop (s.start + 1))) (depth : Nat) :
    depthBehind depth (scan (normalize text)) = depthBehind depth (scan text) := by
  induction text using scan_induction generalizing offset depth with
  | nil => rfl
  | space c rest hc ih =>
    have hquote : '"' ∉ [c] := by
      rw [List.mem_singleton]
      rintro rfl
      exact absurd hc (by decide)
    rw [spansFrom_space hc] at hstay
    rw [← List.singleton_append, depthBehind_scan_normalize_append hquote,
      depthBehind_scan_append depth hquote, ih (drop_succ hwhole) hstay]
  | token c rest hc ih =>
    obtain ⟨body, hrest, -⟩ := Token.exists_piece hc rest
    have hsplit : c :: rest = (c :: body) ++ (Token.ofLead c rest).2 := congrArg (c :: ·) hrest
    rw [spansFrom_token hc _ hrest, List.forall_mem_cons] at hstay
    have hbehind := ih (drop_behind (hwhole.trans hsplit)) hstay.2
    by_cases hquote : c = '"'
    · subst hquote
      have hescapes : escapesStay rest := by
        rw [← drop_succ hwhole]
        exact hstay.1 rfl
      rw [normalize_cons_of_visible (by decide), scan_cons hc, scan_cons hc, depthBehind_cons,
        depthBehind_cons]
      simp only [Token.ofLead] at hbehind ⊢
      rw [unquote_normalize hescapes]
      exact hbehind depth
    · have hnone : '"' ∉ c :: body :=
        Token.notMem_piece hquote hrest (Ne.symm hquote) (by decide)
      rw [hsplit, depthBehind_scan_normalize_append hnone, depthBehind_scan_append depth hnone,
        hbehind]

/-- **When Enter judges rightly.**  If the escapes of its string literals stay where they are,
then as many brackets are open in what is evaluated of an entry as in the text that was typed:
Enter submits it exactly if none is open in what is evaluated. -/
theorem enter_judges_rightly {β : Type} (editor : Editor β) {buffer : β}
    (hsource : (editor.text buffer).head? ≠ some '/') (hstay : LiteralsStay (editor.text buffer)) :
    openDepth (normalize (editor.text buffer)) = openDepth (editor.text buffer) ∧
      (editor.enter buffer = none ↔ openDepth (normalize (editor.text buffer)) = 0) := by
  have hdepth : openDepth (normalize (editor.text buffer)) = openDepth (editor.text buffer) :=
    depthBehind_scan_normalize List.drop_zero hstay 0
  refine ⟨hdepth, ?_⟩
  rw [hdepth, Editor.enter, entryDepth, if_neg hsource]
  split_ifs with h <;> simp [h]

/-- A call over two lines whose argument has a bracket in it, and a backslash in front of a blank
that is taken out. -/
theorem enter_judges_rightly_call :
    let buffer : Buffer := ⟨"f(\u200b\r\n\"a\\\u00a0b(\")".toList, 0⟩
    buffer.text.head? ≠ some '/' ∧ LiteralsStay buffer.text ∧ normalize buffer.text ≠ buffer.text ∧
      openDepth (normalize buffer.text) = openDepth buffer.text ∧
      Buffer.editor.enter buffer = none ∧ openDepth (normalize buffer.text) = 0 := by
  intro buffer
  have hsource : buffer.text.head? ≠ some '/' := by decide +kernel
  have hstay : LiteralsStay buffer.text := by decide +kernel
  have hchanged : normalize buffer.text ≠ buffer.text := by decide +kernel
  have hsubmitted : Buffer.editor.enter buffer = none := by decide +kernel
  obtain ⟨hdepth, hjudged⟩ := @enter_judges_rightly _ Buffer.editor buffer hsource hstay
  exact ⟨hsource, hstay, hchanged, hdepth, hsubmitted, hjudged.1 hsubmitted⟩

/-- Enter submits an entry in which a bracket is open when it is evaluated: the backslash in front
of the blank comes to escape the quote that closed the literal. -/
theorem submitted_entry_opens :
    let buffer : Buffer := ⟨['"', '\\', '\u00a0', '"', '"', '(', '"'], 0⟩
    buffer.text.head? ≠ some '/' ∧ openDepth buffer.text = 0 ∧
      Buffer.editor.enter buffer = none ∧
      normalize buffer.text = ['"', '\\', '"', '"', '(', '"'] ∧
      openDepth (normalize buffer.text) = 1 := by
  decide +kernel

end Console

end MonkeyLang
