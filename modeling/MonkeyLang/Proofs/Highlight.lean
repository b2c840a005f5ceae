import MonkeyLang.Console.Highlight
import MonkeyLang.Proofs.Separation

/-!
# Highlighting line by line

The fragments of a text that are not space are one for each piece of it (`filter_isToken_highlight`).
A newline that belongs to no token divides the pieces of a text into those before it and those behind
it, and everything else about lines follows from that one equation, `pieces_append_newline`.

A view of lines keeps the fragments that it has shown.  They are what would be made again
(`LineView.Faithful`), so that it does not show which lines were asked for before.
-/

namespace MonkeyLang

/-! ### The text between two positions -/

section

variable {text : List Char} {start stop : Nat} {c : Char}

theorem mem_slice {i : Nat} (hstart : start ≤ i) (hstop : i < stop) (hc : text[i]? = some c) :
    c ∈ slice text start stop := by
  apply List.mem_of_getElem? (i := i - start)
  rw [slice, List.getElem?_take_of_lt (by omega), List.getElem?_drop, Nat.add_sub_cancel' hstart, hc]

/-- A position behind the end of a text is as good as the end. -/
theorem slice_of_length_le (h : text.length ≤ stop) : slice text start stop = text.drop start := by
  have hlength : (text.drop start).length ≤ stop - start := by
    rw [List.length_drop]
    omega
  rw [slice, List.take_of_length_le hlength]

theorem slice_succ {rest : List Char} (hle : start ≤ stop) (hc : text.drop stop = c :: rest) :
    slice text start (stop + 1) = slice text start stop ++ [c] := by
  have hget : (text.drop start)[stop - start]? = some c := by
    rw [List.getElem?_drop, Nat.add_sub_cancel' hle, ← List.head?_drop, hc, List.head?_cons]
  rw [slice, slice, Nat.succ_sub hle, List.take_add_one, hget, Option.toList_some]

end

/-! ### Pieces and lines -/

/-- The pieces of a text with a newline that belongs to none of them. -/
theorem pieces_append_newline {first second : List Char}
    (h : ∀ p ∈ pieces (first ++ '\n' :: second), '\n' ∉ p.2) :
    pieces (first ++ '\n' :: second) = pieces first ++ pieces second := by
  have huncovered : ∀ s ∈ spansFrom 0 (first ++ '\n' :: second),
      ¬ (s.start ≤ 0 + first.length ∧ 0 + first.length < s.stop) := by
    rintro s hs ⟨hstart, hstop⟩
    refine h (s.token, s.slice _) (List.mem_map_of_mem hs) (mem_slice hstart hstop ?_)
    rw [Nat.zero_add, List.getElem?_append_right le_rfl, Nat.sub_self, List.getElem?_cons_zero]
  exact pieces_append_space List.drop_zero (lastIsClosed_of_uncovered List.drop_zero huncovered)
    (by decide) second

/-- The pieces of lines with newlines between them. -/
theorem pieces_intercalate {lines : List (List Char)}
    (h : ∀ p ∈ pieces (['\n'].intercalate lines), '\n' ∉ p.2) :
    pieces (['\n'].intercalate lines) = lines.flatMap pieces := by
  induction lines with
  | nil => rw [List.intercalate_nil, pieces_nil, List.flatMap_nil]
  | cons line lines ih =>
    cases lines with
    | nil => simp
    | cons next lines =>
      rw [List.intercalate_cons_cons, List.append_assoc, List.singleton_append] at h ⊢
      have happend := pieces_append_newline h
      -- the pieces of the other lines are among those of the text, and have no newline either
      rw [happend, ih fun p hp => h p (happend ▸ List.mem_append_right _ hp)]
      rfl

namespace Console

/-- With newlines between them the lines of a text are the text. -/
theorem intercalate_lines (text : List Char) : ['\n'].intercalate (lines text) = text := by
  rw [lines, Text.splitOn_eq, List.intercalate_splitOn]

/-! ### Fragments and pieces -/

/-- The fragment is one of a token, and none of the space between tokens: there is a character in it
that is no space. -/
def Fragment.isToken (fragment : Fragment) : Bool :=
  fragment.text.toList.any fun c => !isSpace c

/-- The fragment for a piece of a text. -/
def Fragment.ofPiece (p : Token × List Char) : Fragment :=
  ⟨(Group.ofToken p.1).style, String.ofList p.2⟩

theorem Fragment.isToken_ofList (style : String) (text : List Char) :
    Fragment.isToken ⟨style, String.ofList text⟩ = text.any fun c => !isSpace c := by
  rw [isToken, String.toList_ofList]

theorem Fragment.isToken_ofPiece {t : Token} {piece rest : List Char} (h : t.IsPiece piece rest) :
    (Fragment.ofPiece (t, piece)).isToken := by
  rw [ofPiece, isToken_ofList]
  by_contra hspace
  have hscan : scan (piece ++ []) = scan [] := scan_spaces (by simpa using hspace) []
  rw [List.append_nil, h.scan_eq, scan_nil] at hscan
  cases hscan

/-- There is no token between two positions if there is nothing but space. -/
theorem filter_isToken_gap {text : List Char} {start stop : Nat}
    (h : ∀ c ∈ slice text start stop, isSpace c) :
    (gap text start stop).filter Fragment.isToken = [] := by
  unfold gap
  split
  · have hspace : ¬ Fragment.isToken ⟨"", String.ofList (slice text start stop)⟩ := by
      simpa [Fragment.isToken_ofList] using h
    rw [List.filter_cons_of_neg hspace, List.filter_nil]
  · rfl

/-- The fragments that are tokens, from a position on with nothing but space up to the place where
the spans begin. -/
theorem filter_isToken_fragmentsFrom {offset position : Nat} {text whole : List Char}
    {found : List Span} (h : Tiled offset text found) (hwhole : whole.drop offset = text)
    (hle : position ≤ offset) (hspace : ∀ c ∈ slice whole position offset, isSpace c) :
    (fragmentsFrom whole position found).filter Fragment.isToken =
      found.map fun s => Fragment.ofPiece (s.token, s.slice whole) := by
  induction h generalizing position with
  | @nil offset =>
    have hlength : whole.length ≤ offset := List.drop_eq_nil_iff.1 hwhole
    rw [slice_of_length_le hlength] at hspace
    rw [fragmentsFrom, List.map_nil]
    exact filter_isToken_gap (by rwa [slice_of_length_le le_rfl])
  | @space offset c rest found hc _ ih =>
    -- the gap in front of the next token is one character longer
    refine ih (drop_succ hwhole) (Nat.le_succ_of_le hle) ?_
    rw [slice_succ hle hwhole, List.forall_mem_append, List.forall_mem_singleton]
    exact ⟨hspace, hc⟩
  | @token offset t piece rest found hpiece _ ih =>
    have hnothing : slice whole (offset + piece.length) (offset + piece.length) = [] := by
      rw [slice, Nat.sub_self, List.take_zero]
    rw [fragmentsFrom, List.filter_append, filter_isToken_gap hspace, List.nil_append,
      List.filter_cons_of_pos, ih (drop_behind hwhole) le_rfl (by simp [hnothing]), List.map_cons]
    · rfl
    · have htoken := Fragment.isToken_ofPiece hpiece
      rwa [← slice_of_drop_eq hwhole t] at htoken

/-- **The fragments of a text that are not space are those of its pieces**, in their order. -/
theorem filter_isToken_highlight (text : List Char) :
    (highlight text).filter Fragment.isToken = (pieces text).map Fragment.ofPiece := by
  unfold highlight
  split
  · next hempty =>
    rw [List.isEmpty_iff.1 hempty, pieces_nil]
    rfl
  · have htiled : Tiled 0 text (spans text) := tiled_spansFrom 0 text
    have hnothing : slice text 0 0 = [] := rfl
    rw [filter_isToken_fragmentsFrom htiled List.drop_zero le_rfl (by simp [hnothing]), pieces,
      List.map_map]
    rfl

/-! ### Lines that are shown again -/

namespace LineView

/-- The fragments that are kept are those that would be made again. -/
def Faithful (view : LineView) : Prop :=
  ∀ number fragments, Assoc.find? number view.shown = some fragments →
    fragments = highlightLine view.lines number

theorem faithful_ofLines (lines : List (List Char)) : (ofLines lines).Faithful :=
  nofun

variable {view : LineView}

/-- What showing a line answers, and what it leaves as it is. -/
theorem Faithful.request (h : view.Faithful) (number : Int) :
    (view.request number).1 = highlightLine view.lines number ∧
      (view.request number).2.lines = view.lines ∧ (view.request number).2.Faithful := by
  unfold LineView.request
  split
  · next fragments hfound => exact ⟨h number fragments hfound, rfl, h⟩
  · refine ⟨rfl, rfl, fun other fragments hfound => ?_⟩
    rw [Assoc.find?_insert] at hfound
    split at hfound
    · next heq =>
      obtain rfl := heq
      exact (Option.some.inj hfound).symm
    · exact h other fragments hfound

/-- The answers are the fragments of the lines, whichever lines are asked for, in whatever order and
however often. -/
theorem Faithful.requests (h : view.Faithful) (numbers : List Int) :
    (view.requests numbers).1 = numbers.map (highlightLine view.lines) := by
  induction numbers generalizing view with
  | nil => rfl
  | cons number numbers ih =>
    obtain ⟨hanswer, hlines, hfaithful⟩ := h.request number
    simp only [LineView.requests, List.map_cons, hanswer, ih hfaithful, hlines]

end LineView

/-! ### All lines in their order -/

theorem lineAt_natCast (lines : List (List Char)) (n : Nat) :
    lineAt lines n = lines[n]?.getD [] := by
  rw [lineAt, if_neg (Int.not_lt.2 (Int.natCast_nonneg n)), Int.toNat_natCast]

/-- What the lines yield one after the other, if an empty line yields nothing: there may be more
numbers than lines. -/
theorem flatMap_lineAt {α : Type} {f : List Char → List α} (hf : f [] = [])
    {lines : List (List Char)} {count : Nat} (h : lines.length ≤ count) :
    (List.range count).flatMap (fun n : Nat => f (lineAt lines n)) = lines.flatMap f := by
  simp only [lineAt_natCast]
  induction lines generalizing count with
  | nil => simp [hf]
  | cons line lines ih =>
    obtain ⟨count, rfl⟩ := Nat.exists_eq_succ_of_ne_zero (Nat.ne_zero_of_lt h)
    rw [List.range_succ_eq_map, List.flatMap_cons, List.flatMap_map, List.flatMap_cons,
      ← ih (Nat.le_of_succ_le_succ h)]
    rfl

/-- **Highlighting line by line agrees with highlighting the whole text.**  Let the lines be those
that make up the text with newlines between them.  If no token has a newline in it, the fragments of
the lines are those of the text, space aside; numbers behind the last line add none.  Lines may be
asked for in any order, and again: the answer is always the one that belongs to the number. -/
theorem lines_highlight_alike {text : List Char} {lines : List (List Char)}
    (hlines : ['\n'].intercalate lines = text) (h : ∀ s ∈ spans text, '\n' ∉ s.slice text) :
    (∀ count ≥ lines.length,
      ((LineView.ofLines lines).requests ((List.range count).map Int.ofNat)).1.flatMap
          (·.filter Fragment.isToken) =
        (highlight text).filter Fragment.isToken) ∧
    ∀ numbers : List Int,
      ((LineView.ofLines lines).requests numbers).1 = numbers.map (highlightLine lines) := by
  have hanswers : ∀ numbers : List Int,
      ((LineView.ofLines lines).requests numbers).1 = numbers.map (highlightLine lines) :=
    (LineView.faithful_ofLines lines).requests
  refine ⟨fun count hcount => ?_, hanswers⟩
  have hpieces : ∀ p ∈ pieces text, '\n' ∉ p.2 := List.forall_mem_map.2 h
  calc ((LineView.ofLines lines).requests ((List.range count).map Int.ofNat)).1.flatMap
        (·.filter Fragment.isToken)
      = (List.range count).flatMap fun n : Nat =>
          (pieces (lineAt lines n)).map Fragment.ofPiece := by
        simp only [hanswers, List.flatMap_map, highlightLine, filter_isToken_highlight,
          Int.ofNat_eq_natCast]
    _ = lines.flatMap fun line => (pieces line).map Fragment.ofPiece :=
        flatMap_lineAt (f := fun line => (pieces line).map Fragment.ofPiece) (by simp) hcount
    _ = (lines.flatMap pieces).map Fragment.ofPiece := List.map_flatMap.symm
    _ = (highlight text).filter Fragment.isToken := by
        rw [← pieces_intercalate (hlines.symm ▸ hpieces), hlines, filter_isToken_highlight]

/-- The second line is blank, and the last one ends in a string literal without a closing quote. -/
theorem lines_highlight_alike_open_string :
    let text := "let x\n \n1 \"a\\".toList
    let view := LineView.ofLines (lines text)
    let word : List Fragment := [⟨"bold ansicyan", "let"⟩, ⟨"", " "⟩, ⟨"", "x"⟩]
    let blank : List Fragment := [⟨"", " "⟩]
    let last : List Fragment := [⟨"ansimagenta", "1"⟩, ⟨"", " "⟩, ⟨"ansigreen", "\"a\\"⟩]
    ['\n'].intercalate (lines text) = text ∧ (∀ s ∈ spans text, '\n' ∉ s.slice text) ∧
      (view.requests [0, 1, 2, 3]).1 = [word, blank, last, [⟨"", ""⟩]] ∧
      (view.requests [0, 1, 2, 3]).1.flatMap (·.filter Fragment.isToken) =
        (highlight text).filter Fragment.isToken ∧
      (highlight text).filter Fragment.isToken = [⟨"bold ansicyan", "let"⟩, ⟨"", "x"⟩,
        ⟨"ansimagenta", "1"⟩, ⟨"ansigreen", "\"a\\"⟩] ∧
      (view.requests [2, 0, -1, 2]).1 = [last, word, [⟨"", ""⟩], last] := by
  intro text view word blank last
  have hnewline : ∀ s ∈ spans text, '\n' ∉ s.slice text := by decide +kernel
  have hlength : (lines text).length ≤ 4 := by decide
  obtain ⟨hlines, hanswers⟩ := lines_highlight_alike (intercalate_lines text) hnewline
  refine ⟨intercalate_lines text, hnewline, ?_, hlines 4 hlength, by decide +kernel, ?_⟩
  · rw [hanswers]
    decide +kernel
  · rw [hanswers]
    decide +kernel

end Console

end MonkeyLang
