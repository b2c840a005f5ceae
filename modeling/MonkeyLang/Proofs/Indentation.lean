import MonkeyLang.Console.Entry
import MonkeyLang.Proofs.Separation

/-!
# The line break that Enter inserts

While brackets are open in an entry, Enter inserts a line break with an indentation.  To the tokens
of the entry that is space behind the last of them, and changes nothing, with one exception: a
string literal that has no closing quote yet takes it in (`EndsInString`).

* `Text.unquote_append_of_open`: an open literal takes in what is put behind it as it stands, even
  if its last character is a backslash that waits for one to escape;
* `scan_append_of_open`: of the tokens in front of it none changes;
* `Console.line_break_keeps_tokens` is the main statement.
-/

namespace MonkeyLang

/-! ### Literals that go on -/

section

variable {text line : List Char}

/-- A character that a backslash does not go together with is none of those that end a literal or
begin an escape. -/
theorem Text.ne_of_unescape {c : Char} (hc : unescape c = ['\\', c]) : c ≠ '"' ∧ c ≠ '\\' := by
  constructor
  · rintro rfl
    exact absurd hc (by decide)
  · rintro rfl
    exact absurd hc (by decide)

/-- Such characters stand for themselves. -/
theorem Text.unquote_of_plain (hline : ∀ c ∈ line, unescape c = ['\\', c]) :
    unquote line = (line, []) := by
  induction line with
  | nil => rfl
  | cons c line ih =>
    obtain ⟨hc, hline⟩ := List.forall_mem_cons.1 hline
    obtain ⟨hquote, hbackslash⟩ := ne_of_unescape hc
    rw [unquote_cons_of_plain hquote fun h => absurd h hbackslash, ih hline]

/-- A literal without a closing quote takes in such characters behind it. -/
theorem Text.unquote_append_of_open (hopen : isClosed text = false)
    (hline : ∀ c ∈ line, unescape c = ['\\', c]) :
    unquote (text ++ line) = ((unquote text).1 ++ line, []) := by
  fun_induction isClosed text with
  | case1 => exact unquote_of_plain hline
  | case2 c rest ih => simp [unquote, ih hopen]
  | case3 c rest hescape ih =>
    obtain ⟨hquote, hrest⟩ : c ≠ '"' ∧ isClosed rest = false := by simpa using hopen
    by_cases hbackslash : c = '\\'
    · subst hbackslash
      cases rest with
      | nil =>
        -- the backslash is the last character, and comes to stand in front of the first of `line`
        cases line with
        | nil => rfl
        | cons d line =>
          obtain ⟨hd, hline⟩ := List.forall_mem_cons.1 hline
          simp [unquote, hd, unquote_of_plain hline]
      | cons d rest => exact absurd rfl (hescape d rest rfl)
    · rw [List.cons_append, unquote_cons_of_plain hquote fun h => absurd h hbackslash,
        unquote_cons_of_plain hquote fun h => absurd h hbackslash, ih hrest, List.cons_append]

/-- The token that such a literal is, with more characters in it. -/
theorem Token.ofLead_append_of_open (hopen : Text.isClosed text = false)
    (hline : ∀ c ∈ line, Text.unescape c = ['\\', c]) :
    ofLead '"' (text ++ line) =
      (⟨.string, (ofLead '"' text).1.literal ++ String.ofList line⟩, []) := by
  simp [ofLead, Text.unquote_append_of_open hopen hline]

end

theorem lastIsClosed_nil (text : List Char) : LastIsClosed text [] := by
  simp [LastIsClosed]

/-- If it is not the spans behind it that end with a literal without a closing quote, but those from
it on do, then a span is itself one of such a literal. -/
theorem isOpen_of_not_lastIsClosed_cons {text : List Char} {s : Span} {found : List Span}
    (hlast : ¬ LastIsClosed text (s :: found)) (hfound : LastIsClosed text found) :
    s.token.kind = .string ∧ Text.isClosed (s.slice text).tail = false := by
  by_contra hclosed
  refine hlast (lastIsClosed_cons.2 ⟨fun _ hkind => ?_, hfound⟩)
  by_contra hopen
  exact hclosed ⟨hkind, by simpa using hopen⟩

/-- If the last token of a text is a literal without a closing quote, it is all that changes when
such characters are put behind the text. -/
theorem scan_append_of_open {offset : Nat} {text whole line : List Char}
    (hwhole : whole.drop offset = text) (hlast : ¬ LastIsClosed whole (spansFrom offset text))
    (hline : ∀ c ∈ line, Text.unescape c = ['\\', c]) :
    ∃ before literal, scan text = before ++ [⟨.string, literal⟩] ∧
      scan (text ++ line) = before ++ [⟨.string, literal ++ String.ofList line⟩] := by
  induction text using scan_induction generalizing offset with
  | nil =>
    rw [spansFrom_nil] at hlast
    exact absurd (lastIsClosed_nil whole) hlast
  | space c rest hc ih =>
    rw [spansFrom_space hc] at hlast
    rw [List.cons_append, scan_space hc, scan_space hc]
    exact ih (drop_succ hwhole) hlast
  | token c rest hc ih =>
    obtain ⟨body, hrest, hpiece⟩ := Token.exists_piece hc rest
    have hsplit : whole.drop offset = (c :: body) ++ (Token.ofLead c rest).2 :=
      hwhole.trans (congrArg (c :: ·) hrest)
    rw [spansFrom_token hc _ hrest] at hlast
    rw [List.cons_append, scan_cons hc, scan_cons hc]
    by_cases hbehind : LastIsClosed whole
        (spansFrom (offset + (c :: body).length) (Token.ofLead c rest).2)
    · -- this token is the open literal, and the text ends with it
      obtain ⟨hkind, hopen⟩ := isOpen_of_not_lastIsClosed_cons hlast hbehind
      rw [slice_of_drop_eq hsplit, List.tail_cons] at hopen
      obtain rfl := Token.eq_quote_of_kind hkind
      have hnil : (Token.ofLead '"' rest).2 = [] := hpiece.closes hkind hopen
      obtain rfl : rest = body := by rwa [hnil, List.append_nil] at hrest
      refine ⟨[], (Token.ofLead '"' rest).1.literal, ?_, ?_⟩
      · rw [hnil, scan_nil]
        rfl
      · rw [Token.ofLead_append_of_open hopen hline, scan_nil]
        rfl
    · have hne : (Token.ofLead c rest).2 ≠ [] := by
        intro hnil
        rw [hnil, spansFrom_nil] at hbehind
        exact hbehind (lastIsClosed_nil whole)
      obtain ⟨before, literal, hscan, hmore⟩ := ih (drop_behind hsplit) hbehind
      refine ⟨(Token.ofLead c rest).1 :: before, literal, ?_, ?_⟩
      · rw [hscan, List.cons_append]
      · rw [Token.ofLead_append fun h => absurd h hne, hmore, List.cons_append]

theorem not_lastIsClosed_spans {text : List Char} (h : EndsInString text) :
    ¬ LastIsClosed text (spans text) := by
  intro hclosed
  obtain ⟨s, hs, hkind, hopen⟩ := h
  rw [hclosed s hs hkind] at hopen
  cases hopen

namespace Console

/-! ### Enter -/

theorem unescape_of_mem_lineBreak {depth : Nat} {c : Char} (hc : c ∈ lineBreak depth) :
    Text.unescape c = ['\\', c] := by
  rcases List.mem_cons.1 hc with rfl | hc
  · rfl
  · obtain rfl := List.eq_of_mem_replicate hc
    rfl

/-- To tokens that are complete a line break is space. -/
theorem scan_append_lineBreak {text : List Char} (h : ¬ EndsInString text) (depth : Nat)
    (more : List Char) : scan (text ++ lineBreak depth ++ more) = scan text ++ scan more := by
  have hindent : ∀ c ∈ List.replicate (4 * depth) ' ', isSpace c := by
    intro c hc
    obtain rfl := List.eq_of_mem_replicate hc
    rfl
  rw [lineBreak, List.append_assoc, List.cons_append,
    scan_append_space List.drop_zero (lastIsClosed_spans h) (by decide), scan_spaces hindent]

/-- A literal without a closing quote takes a line break in. -/
theorem scan_append_lineBreak_of_open {text : List Char} (h : EndsInString text) (depth : Nat) :
    ∃ before literal, scan text = before ++ [⟨.string, literal⟩] ∧
      scan (text ++ lineBreak depth) =
        before ++ [⟨.string, literal ++ String.ofList (lineBreak depth)⟩] :=
  scan_append_of_open List.drop_zero (not_lastIsClosed_spans h) fun _ => unescape_of_mem_lineBreak

theorem append_lineBreak_ne (literal : String) (depth : Nat) :
    literal ++ String.ofList (lineBreak depth) ≠ literal := by
  intro h
  have hlength := congrArg String.length h
  rw [String.length_append, String.length_ofList, lineBreak, List.length_cons] at hlength
  omega

/-- **What the line break of Enter does to an entry.**  Enter keeps reading an entry in which
brackets are open.  The tokens stay as they are exactly if no string literal is open at the end, and
then they are read in the same way whatever is typed next.  A literal that is open takes in the line
break with the indentation, and no other token changes.  As many brackets are open as before.  The
cursor is taken to be at the end of the entry. -/
theorem line_break_keeps_tokens {β : Type} (editor : Editor β) {buffer : β}
    (hend : editor.AtEnd buffer) (hsource : (editor.text buffer).head? ≠ some '/')
    (hopen : 0 < openDepth (editor.text buffer)) :
    let text := editor.text buffer
    let entry := text ++ lineBreak (openDepth text)
    (∃ after, editor.enter buffer = some after ∧ editor.text after = entry) ∧
      (tokens entry = tokens text ↔ ¬ EndsInString text) ∧
      (¬ EndsInString text → ∀ more, scan (entry ++ more) = scan text ++ scan more) ∧
      (EndsInString text → ∃ before literal, scan text = before ++ [⟨.string, literal⟩] ∧
        scan entry =
          before ++ [⟨.string, literal ++ String.ofList (lineBreak (openDepth text))⟩]) ∧
      openDepth entry = openDepth text := by
  intro text entry
  have hkept : ¬ EndsInString text → scan entry = scan text := by
    intro hclosed
    have hmore := scan_append_lineBreak hclosed (openDepth text) []
    rwa [List.append_nil, scan_nil, List.append_nil] at hmore
  have htaken (hstring : EndsInString text) :=
    scan_append_lineBreak_of_open hstring (openDepth text)
  refine ⟨?_, ⟨fun htokens hstring => ?_, fun hclosed => ?_⟩, fun hclosed more =>
    scan_append_lineBreak hclosed _ more, htaken, ?_⟩
  · refine ⟨editor.insert (lineBreak (openDepth text)) buffer, ?_, hend _⟩
    have hdepth : entryDepth (editor.text buffer) = openDepth text := by
      rw [entryDepth, if_neg hsource]
    rw [Editor.enter, hdepth, if_neg (Nat.ne_of_gt hopen)]
  · obtain ⟨before, literal, hscan, hmore⟩ := htaken hstring
    rw [tokens, tokens, List.append_left_inj, hmore, hscan] at htokens
    have hliteral := List.append_cancel_left htokens
    simp only [List.cons.injEq, Token.mk.injEq, true_and, and_true] at hliteral
    exact append_lineBreak_ne literal _ hliteral
  · rw [tokens, tokens, hkept hclosed]
  · by_cases hstring : EndsInString text
    · obtain ⟨before, literal, hscan, hmore⟩ := htaken hstring
      rw [openDepth, openDepth, hmore, hscan, List.foldl_append, List.foldl_append]
      rfl
    · rw [openDepth, hkept hstring, openDepth]

/-- Two brackets are open behind a literal with a bracket in it, and the last token is one that an
equals sign could go with. -/
theorem line_break_keeps_tokens_assign :
    let buffer : Buffer := ⟨"f(\"a\\\"(\", [x =".toList, 0⟩
    let entry := buffer.text ++ lineBreak 2
    Buffer.editor.AtEnd buffer ∧ buffer.text.head? ≠ some '/' ∧ openDepth buffer.text = 2 ∧
      ¬ EndsInString buffer.text ∧ Buffer.editor.enter buffer = some ⟨entry, 0⟩ ∧
      tokens entry = tokens buffer.text ∧
      scan (entry ++ ['=']) = scan buffer.text ++ scan ['='] ∧ openDepth entry = 2 := by
  intro buffer entry
  have hsource : buffer.text.head? ≠ some '/' := by decide +kernel
  have hdepth : openDepth (Buffer.editor.text buffer) = 2 := by decide +kernel
  have hlast : (spans buffer.text).getLast?.map (·.token.kind) = some .assign := by decide +kernel
  have hclosed : ¬ EndsInString buffer.text := by
    rintro ⟨s, hs, hkind, -⟩
    rw [Option.mem_def.1 hs, Option.map_some, hkind] at hlast
    cases hlast
  have hend := Buffer.editor_atEnd buffer
  have henter : Buffer.editor.enter buffer = some ⟨entry, 0⟩ := by decide +kernel
  obtain ⟨-, htokens, hmore, -, hopen⟩ :=
    line_break_keeps_tokens Buffer.editor hend hsource (hdepth ▸ Nat.two_pos)
  rw [hdepth] at htokens hmore hopen
  exact ⟨hend, hsource, hdepth, hclosed, henter, htokens.2 hclosed, hmore hclosed ['='], hopen⟩

/-- A string literal that is open when Enter is pressed behind an open bracket has the line break in
it afterwards. -/
theorem line_break_enters_string :
    let buffer : Buffer := ⟨['(', '"', 'a'], 0⟩
    buffer.text.head? ≠ some '/' ∧ 0 < openDepth buffer.text ∧
      Buffer.editor.enter buffer = some ⟨buffer.text ++ lineBreak (openDepth buffer.text), 0⟩ ∧
      tokens (buffer.text ++ lineBreak (openDepth buffer.text)) ≠ tokens buffer.text := by
  decide +kernel

end Console

end MonkeyLang
