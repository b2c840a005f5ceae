import MonkeyLang.Token.Scan

/-!
# Typing an entry

An entry is typed into the buffer of an `Editor`.  Two keys have a meaning of their own: Enter
submits the entry, unless brackets are open in it, when it begins an indented line instead
(`Editor.enter`); Backspace also asks for completions of a command (`Editor.backspace`).

* `openDepth` counts the brackets that are open at the end of a text;
* `normalize` takes out characters that come in with pasted text and cannot be seen.
-/

namespace MonkeyLang.Console

/-- The number of open brackets after a token, given the number before it.  The kind of bracket does
not matter, and one that closes nothing is ignored. -/
def depthAfter (depth : Nat) (token : Token) : Nat :=
  match token.kind with
  | .lparen | .lbracket | .lbrace => depth + 1
  | .rparen | .rbracket | .rbrace => depth - 1
  | _ => depth

/-- The number of brackets that are open at the end of a text. -/
def openDepth (text : List Char) : Nat :=
  (scan text).foldl depthAfter 0

/-- Tells whether a character is taken out of entries: three of width zero, the byte order mark, the
blank that does not break, and the carriage return. -/
def isInvisible (c : Char) : Bool :=
  [0x200b, 0x200c, 0x200d, 0xfeff, 0xa0, 0x0d].contains c.toNat

/-- A text without the characters that are taken out of entries. -/
def normalize (text : List Char) : List Char :=
  text.filter (!isInvisible ·)

/-! ### Keys -/

/-- What an editor does with its buffers. -/
structure Editor (β : Type) where
  /-- The text in a buffer. -/
  text : β → List Char
  /-- Puts text in where the cursor is. -/
  insert : List Char → β → β
  /-- Takes out the character in front of the cursor. -/
  deleteBefore : β → β
  /-- Asks for completions. -/
  startCompletion : β → β

/-- The depth by which Enter indents; a command has none. -/
def entryDepth (text : List Char) : Nat :=
  if text.head? = some '/' then 0 else openDepth text

/-- The line break that Enter inserts at a depth. -/
def lineBreak (depth : Nat) : List Char :=
  '\n' :: List.replicate (4 * depth) ' '

namespace Editor

variable {β : Type} (editor : Editor β)

/-- The buffer after Enter, or none if Enter submits the entry. -/
def enter (buffer : β) : Option β :=
  let depth := entryDepth (editor.text buffer)
  if depth = 0 then none else some (editor.insert (lineBreak depth) buffer)

/-- The buffer after Backspace. -/
def backspace (buffer : β) : β :=
  let buffer := editor.deleteBefore buffer
  if (editor.text buffer).head? = some '/' then editor.startCompletion buffer else buffer

/-- The cursor is at the end of a buffer: what is put in comes to stand behind its text. -/
def AtEnd (buffer : β) : Prop :=
  ∀ inserted, editor.text (editor.insert inserted buffer) = editor.text buffer ++ inserted

end Editor

/-- A buffer with the cursor at its end, and how often completions were asked for. -/
structure Buffer where
  text : List Char
  completions : Nat
  deriving DecidableEq

/-- The empty buffer. -/
def Buffer.empty : Buffer := ⟨[], 0⟩

/-- The editor in which the cursor stays at the end. -/
def Buffer.editor : Editor Buffer where
  text := Buffer.text
  insert text buffer := { buffer with text := buffer.text ++ text }
  deleteBefore buffer := { buffer with text := buffer.text.dropLast }
  startCompletion buffer := { buffer with completions := buffer.completions + 1 }

theorem Buffer.editor_atEnd (buffer : Buffer) : editor.AtEnd buffer := fun _ => rfl

end MonkeyLang.Console
