import MonkeyLang.Proofs.Lexeme
import MonkeyLang.Syntax.Render
import MonkeyLang.Token.Cursor

/-!
# String literals in any context

A cursor in front of a token is behind it once the token is read (`Cursor.token_of_ofLead`).  A
written string literal is such a token, whatever stands in front of it and behind it
(`literal_reads_back`): each of its characters is read back alone, so that the quote which closes it
is the first one that counts as a quote.
-/

namespace MonkeyLang

namespace Cursor

variable {c : Char} {body rest : List Char} {t : Token}

/-- Reading a piece of the text moves the cursor behind that piece. -/
theorem moveTo_append (passed : Nat) (piece rest : List Char) :
    (⟨passed, piece ++ rest⟩ : Cursor).moveTo rest = ⟨passed + piece.length, rest⟩ := by
  simp [moveTo]

/-- A token is read, and the cursor is behind its text. -/
theorem token_of_ofLead (hc : isSpace c = false) (h : Token.ofLead c (body ++ rest) = (t, rest))
    (passed : Nat) : (⟨passed, (c :: body) ++ rest⟩ : Cursor).token =
      (t, ⟨passed + (c :: body).length, rest⟩) := by
  have hnext : Token.next? ((c :: body) ++ rest) = some (t, rest) := by
    simp [Token.next?, hc, h]
  rw [token, hnext]
  exact congrArg (t, ·) (moveTo_append passed (c :: body) rest)

/-- A literal is read by hand from its opening quote on. -/
theorem string_of_unquote {value : List Char} (h : Text.unquote (body ++ rest) = (value, rest))
    (passed : Nat) : (⟨passed, (c :: body) ++ rest⟩ : Cursor).string =
      (String.ofList value, ⟨passed + (c :: body).length, rest⟩) := by
  have hopened : (⟨passed, (c :: body) ++ rest⟩ : Cursor).advance = ⟨passed + 1, body ++ rest⟩ :=
    rfl
  rw [string, hopened]
  dsimp only
  rw [h, moveTo_append, List.length_cons, Nat.add_right_comm, Nat.add_assoc]

end Cursor

/-- **A string literal is read back in any context.**  Where a string is written as a literal, a
cursor reads that string, by hand or as its next token, and stops right behind the literal, whatever
was passed before and whatever follows. -/
theorem literal_reads_back (lead : Token) (value : String) (passed : Nat) (rest : List Char) :
    let literal := (Node.string lead value).render.toList
    let before : Cursor := ⟨passed, literal ++ rest⟩
    let behind : Cursor := ⟨passed + literal.length, rest⟩
    before.token = (⟨.string, value⟩, behind) ∧ before.string = (value, behind) := by
  intro literal before behind
  have hliteral : literal = '"' :: (value.toList.flatMap Text.escape ++ ['"']) :=
    String.toList_ofList
  have hbody : (value.toList.flatMap Text.escape ++ ['"']) ++ rest =
      value.toList.flatMap Text.escape ++ '"' :: rest := by
    rw [List.append_assoc, List.singleton_append]
  have htoken := Cursor.token_of_ofLead (by decide) (hbody ▸ Token.ofLead_quote value rest) passed
  have hstring := Cursor.string_of_unquote (c := '"')
    (hbody ▸ Text.unquote_escape value.toList rest) passed
  rw [String.ofList_toList] at hstring
  rw [← hliteral] at htoken hstring
  exact ⟨htoken, hstring⟩

end MonkeyLang
