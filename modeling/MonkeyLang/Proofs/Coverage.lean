import MonkeyLang.Proofs.Highlight

/-!
# Fragments cover a text

The fragments of a text are cut at the positions of its spans.  Put together they are the text
again, and none of them is empty unless the text is (`highlight_covers`).  Apart from the gaps,
which are space and have no style, they are the slices of the spans, each in the style of its
token.
-/

namespace MonkeyLang

/-- The characters between two positions and those behind them are all behind the first. -/
theorem slice_append_drop {text : List Char} {start stop : Nat} (h : start ≤ stop) :
    slice text start stop ++ text.drop stop = text.drop start := by
  have hdrop : text.drop stop = (text.drop start).drop (stop - start) := by
    rw [List.drop_drop, Nat.add_sub_cancel' h]
  rw [slice, hdrop, List.take_append_drop]

namespace Console

/-! ### Gaps -/

section

variable {text : List Char} {start stop : Nat}

/-- A gap is left out only where there is nothing to show. -/
theorem flatMap_text_gap (text : List Char) (start stop : Nat) :
    (gap text start stop).flatMap (·.text.toList) = slice text start stop := by
  unfold gap
  split
  · simp
  · next h =>
    have hnothing : stop - start = 0 := by omega
    simp [slice, hnothing]

theorem style_of_mem_gap {fragment : Fragment} (h : fragment ∈ gap text start stop) :
    fragment.style = "" := by
  unfold gap at h
  split at h
  · rw [List.mem_singleton.1 h]
  · cases h

theorem text_ne_of_mem_gap (hstop : stop ≤ text.length) {fragment : Fragment}
    (h : fragment ∈ gap text start stop) : fragment.text ≠ "" := by
  unfold gap at h
  split at h
  · next hlt =>
    rw [List.mem_singleton.1 h, Ne, String.ofList_eq_empty_iff, slice, List.take_eq_nil_iff,
      List.drop_eq_nil_iff]
    omega
  · cases h

end

/-! ### Fragments behind a position -/

section

variable {offset position : Nat} {text whole : List Char} {found : List Span}

/-- The fragments behind a position show all that there is behind it. -/
theorem flatMap_text_fragmentsFrom (h : Tiled offset text found) (hwhole : whole.drop offset = text)
    (hle : position ≤ offset) :
    (fragmentsFrom whole position found).flatMap (·.text.toList) = whole.drop position := by
  induction h generalizing position with
  | @nil offset =>
    rw [fragmentsFrom, flatMap_text_gap, slice_of_length_le le_rfl]
  | space _ _ ih => exact ih (drop_succ hwhole) (Nat.le_succ_of_le hle)
  | @token offset t piece rest found _ _ ih =>
    have hbehind : whole.drop (offset + piece.length) = rest := drop_behind hwhole
    rw [fragmentsFrom, List.flatMap_append, List.flatMap_cons, flatMap_text_gap,
      ih hbehind le_rfl, hbehind, String.toList_ofList, slice_of_drop_eq hwhole, ← hwhole,
      slice_append_drop hle]

/-- None of the fragments behind a position is empty. -/
theorem text_ne_of_mem_fragmentsFrom (h : Tiled offset text found)
    (hwhole : whole.drop offset = text) (hoffset : offset ≤ whole.length) {fragment : Fragment}
    (hmem : fragment ∈ fragmentsFrom whole position found) : fragment.text ≠ "" := by
  induction h generalizing position with
  | nil => exact text_ne_of_mem_gap le_rfl hmem
  | @space offset c rest found _ _ ih =>
    have hlength := congrArg List.length hwhole
    rw [List.length_drop, List.length_cons] at hlength
    exact ih (drop_succ hwhole) (by omega) hmem
  | @token offset t piece rest found hpiece _ ih =>
    have hlength := congrArg List.length hwhole
    rw [List.length_drop, List.length_append] at hlength
    have hpositive := List.length_pos_iff.2 hpiece.ne_nil
    rw [fragmentsFrom, List.mem_append, List.mem_cons] at hmem
    rcases hmem with hgap | rfl | hmem
    · exact text_ne_of_mem_gap hoffset hgap
    · rw [slice_of_drop_eq hwhole, Ne, String.ofList_eq_empty_iff]
      exact hpiece.ne_nil
    · exact ih (drop_behind hwhole) (by omega) hmem

/-- A fragment that is no token is a gap. -/
theorem style_of_mem_fragmentsFrom (h : Tiled offset text found) (hwhole : whole.drop offset = text)
    {fragment : Fragment} (hmem : fragment ∈ fragmentsFrom whole position found)
    (htoken : ¬ fragment.isToken) : fragment.style = "" := by
  induction h generalizing position with
  | nil => exact style_of_mem_gap hmem
  | space _ _ ih => exact ih (drop_succ hwhole) hmem
  | @token offset t piece rest found hpiece _ ih =>
    rw [fragmentsFrom, List.mem_append, List.mem_cons, slice_of_drop_eq hwhole] at hmem
    rcases hmem with hgap | rfl | hmem
    · exact style_of_mem_gap hgap
    · exact absurd (Fragment.isToken_ofPiece hpiece) htoken
    · exact ih (drop_behind hwhole) hmem

end

/-! ### All fragments -/

theorem highlight_of_ne_nil {text : List Char} (h : text ≠ []) :
    highlight text = fragmentsFrom text 0 (spans text) := by
  rw [highlight, if_neg (by simpa using h)]

/-- **Highlighting covers every character.**  The fragments of a text, put together, are the text;
an empty one is among them only if the text is empty; those that are no gaps are the slices of the
spans in their order, each in the style of the group of its token; and the gaps have no style. -/
theorem highlight_covers (text : List Char) :
    (highlight text).flatMap (·.text.toList) = text ∧
    ((∃ fragment ∈ highlight text, fragment.text = "") ↔ text = []) ∧
    (highlight text).filter Fragment.isToken =
      (spans text).map (fun s =>
        ⟨(Group.ofToken s.token).style, String.ofList (s.slice text)⟩) ∧
    ∀ fragment ∈ highlight text, ¬ fragment.isToken → fragment.style = "" := by
  have htiled : Tiled 0 text (spans text) := tiled_spansFrom 0 text
  have htokens : (highlight text).filter Fragment.isToken = (spans text).map (fun s =>
      ⟨(Group.ofToken s.token).style, String.ofList (s.slice text)⟩) := by
    rw [filter_isToken_highlight, pieces, List.map_map]
    rfl
  by_cases htext : text = []
  · subst htext
    exact ⟨rfl, by simp [highlight], htokens, by simp [highlight]⟩
  · rw [highlight_of_ne_nil htext] at htokens ⊢
    refine ⟨flatMap_text_fragmentsFrom htiled List.drop_zero le_rfl, ?_, htokens,
      fun _ => style_of_mem_fragmentsFrom htiled List.drop_zero⟩
    refine iff_of_false ?_ htext
    rintro ⟨fragment, hmem, hempty⟩
    exact text_ne_of_mem_fragmentsFrom htiled List.drop_zero (Nat.zero_le _) hmem hempty

end Console

end MonkeyLang
