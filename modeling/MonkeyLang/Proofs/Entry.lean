import Mathlib.Data.List.DropRight
import MonkeyLang.Console.Loop
import MonkeyLang.Proofs.Refusal
import MonkeyLang.Proofs.Sequence

/-!
# Programs are no commands

Whether an entry is a command is decided before it is read, by its first character that is no blank.
There are more blanks than characters that separate tokens.  So an entry may look like a command,
or like nothing at all, although it does not begin like that for the reader of programs.

No program is lost by this.  A blank that separates no tokens is a token of its own, of a kind that
begins no statement, and so is a slash; in either case there is a diagnostic
(`currentOf_scan_of_blank`, `diagnostics_ne_nil`).  An entry with a statement and without
diagnostics is evaluated: it is no command, and it is not blank (`Console.request_of_isProgram`).
-/

namespace MonkeyLang

open Rule Grammar

/-! ### What begins no statement -/

theorem mem_diagnostics_bind {α β : Type} {rule : Rule α} {ts : List Token} {d : Diagnostic}
    (h : d ∈ (rule ts).diagnostics) (next : α → Rule β) :
    d ∈ ((rule >>= next) ts).diagnostics := by
  cases hv : (rule ts).value with
  | none => rwa [bind_apply_of_none hv]
  | some a =>
    rw [bind_apply_of_some hv]
    exact List.mem_append_left _ h

theorem current_bind_apply {β : Type} (next : Token → Rule β) (ts : List Token) :
    (current >>= next) ts = next (currentOf ts) ts := rfl

/-- A token that begins no statement leaves a diagnostic. -/
theorem mem_diagnostics_statement {ts : List Token}
    (h : (currentOf ts).kind = .illegal ∨ (currentOf ts).kind = .slash) :
    .noOperand (currentOf ts).kind ∈ (statement expression ts).diagnostics := by
  have hoperand : ∀ expr, .noOperand (currentOf ts).kind ∈ (operand expr ts).diagnostics := by
    intro expr
    rw [operand, current_bind_apply]
    rcases h with h | h <;> rw [h] <;> exact List.mem_singleton_self _
  have hexpression : .noOperand (currentOf ts).kind ∈
      (attempt (expression .lowest) ts).diagnostics := by
    change _ ∈ (expressionWithin (ts.length + 1) .lowest ts).diagnostics
    exact mem_diagnostics_bind (hoperand _) _
  have hstatement : statement expression ts = expressionStatement expression ts := by
    rw [statement, current_bind_apply]
    rcases h with h | h <;> rw [h]
  rw [hstatement, expressionStatement, current_bind_apply]
  exact mem_diagnostics_bind hexpression _

theorem diagnostics_ne_nil {text : List Char} (h : (currentOf (scan text)).kind = .illegal ∨
    (currentOf (scan text)).kind = .slash) : (parse text).diagnostics ≠ [] := by
  have hkind : (currentOf (scan text)).kind ≠ .eof := by rcases h with h | h <;> simp [h]
  rw [parse, parseTokens_eq, statementsIn_step hkind]
  exact List.ne_nil_of_mem (List.mem_append_left _ (mem_diagnostics_statement h))

/-! ### Blanks -/

namespace Text

/-- A character that separates tokens is a blank. -/
theorem isBlank_of_isSpace {c : Char} (h : isSpace c) : isBlank c := by
  simp only [isSpace, Bool.or_eq_true, decide_eq_true_eq] at h
  rcases h with ((rfl | rfl) | rfl) | rfl <;> decide

/-- Any other blank is a token of its own. -/
theorem kind_of_isBlank {c : Char} (h : isBlank c) (hspace : isSpace c = false) (rest : List Char) :
    (Token.ofLead c rest).1.kind = .illegal := by
  -- blanks are given by a table of code points, so they are looked at one by one
  have hcases : ∀ n ∈ blanks, isSpace (Char.ofNat n) = true ∨
      Char.ofNat n ∉ ['=', '!', '"'] ∧ isLetter (Char.ofNat n) = false ∧
        isDigit (Char.ofNat n) = false ∧ TokenKind.ofChar (Char.ofNat n) = .illegal := by
    decide
  have hmem : c.toNat ∈ blanks := by simpa [isBlank] using h
  have hc := hcases c.toNat hmem
  rw [Char.ofNat_toNat] at hc
  obtain ⟨hsign, hletter, hdigit, hillegal⟩ := hc.resolve_left (by simp [hspace])
  simp only [List.mem_cons, List.not_mem_nil, or_false, not_or] at hsign
  simp [Token.ofLead, hsign, hletter, hdigit, hillegal]

/-- A text begins in the same way when the blanks at its end are taken away as well. -/
theorem head?_trim (text : List Char) : (trim text).head? = (text.dropWhile isBlank).head? := by
  change ((text.dropWhile isBlank).rdropWhile isBlank).head? = _
  cases htext : text.dropWhile isBlank with
  | nil => rfl
  | cons c rest =>
    have hfirst : isBlank c = false := by
      have hne : text.dropWhile isBlank ≠ [] := by simp [htext]
      simpa [htext] using List.head_dropWhile_not isBlank hne
    obtain ⟨taken, htaken⟩ := List.rdropWhile_prefix isBlank (c :: rest)
    cases hkept : (c :: rest).rdropWhile isBlank with
    | nil =>
      have hall := List.rdropWhile_eq_nil_iff.1 hkept c List.mem_cons_self
      simp [hfirst] at hall
    | cons d kept =>
      rw [hkept] at htaken
      rw [List.head?_cons, List.head?_cons, (List.cons.inj htaken).1]

end Text

/-- For the reader of programs, a text of blanks and a text whose first character that is no blank
is a slash have nothing in them, or begin with a blank of its own or with a slash. -/
theorem currentOf_scan_of_blank {text : List Char}
    (h : ∀ c, (text.dropWhile Text.isBlank).head? = some c → c = '/') :
    scan text = [] ∨ (currentOf (scan text)).kind = .illegal ∨
      (currentOf (scan text)).kind = .slash := by
  induction text with
  | nil => exact .inl scan_nil
  | cons c rest ih =>
    by_cases hspace : isSpace c
    · rw [scan_space hspace]
      exact ih (by simpa [Text.isBlank_of_isSpace hspace] using h)
    · have hspace : isSpace c = false := by simpa using hspace
      rw [scan_cons hspace]
      by_cases hblank : Text.isBlank c
      · exact .inr (.inl (Text.kind_of_isBlank hblank hspace rest))
      · obtain rfl : c = '/' := h c (by simp [hblank])
        exact .inr (.inr rfl)

/-! ### Requests -/

namespace Console

/-- What a submitted text asks for: nothing, a command, or its evaluation. -/
inductive Request
  | nothing
  | command (command : Option Command) (word argument : String)
  | evaluation (source : List Char)

/-- What a submitted text asks for. -/
def request (text : List Char) : Request :=
  if (Text.trim (normalize text)).isEmpty then .nothing
  else
    match Command.read? (normalize text) with
    | some (word, argument) => .command (Command.ofWord? word) word argument
    | none => .evaluation (normalize text)

/-- Does what is asked for. -/
def answer (host : Host) (console : Console) : Request → Step
  | .nothing => ⟨.empty, console, none⟩
  | .command (some command) _ argument =>
    let (shown, console) := console.obey host command argument
    ⟨shown, console, none⟩
  | .command none word _ => ⟨.errors ("Unknown command: " ++ word ++ "\n"), console, none⟩
  | .evaluation source => console.evaluate host (String.ofList source)

theorem submit_eq (host : Host) (console : Console) (text : List Char) :
    console.submit host text = console.answer host (request text) := by
  unfold submit request
  dsimp only
  split
  · rfl
  · cases Command.read? (normalize text) with
    | none => rfl
    | some line =>
      dsimp only
      rw [obeyWord]
      cases Command.ofWord? line.1 <;> rfl

/-- A text without the characters that are taken out of entries, and without integer literals that
have too many digits to be converted. -/
structure IsClean (text : List Char) : Prop where
  visible : ∀ c ∈ text, isInvisible c = false
  convertible : ∀ t ∈ scan text, t.isOverlong = false

instance (text : List Char) : Decidable (IsClean text) :=
  decidable_of_iff (text.all (!isInvisible ·) ∧ (scan text).all (!·.isOverlong))
    ⟨fun h => ⟨by simpa using h.1, by simpa using h.2⟩, fun h => by simpa using ⟨h.1, h.2⟩⟩

/-- A text that is read without diagnostics as a program with a statement. -/
structure IsProgram (text : List Char) : Prop where
  sound : (parse text).diagnostics = []
  statement : ∃ first others, (parse text).program = .program (first :: others)

namespace IsClean

variable {text : List Char}

theorem normalize_eq (h : IsClean text) : normalize text = text :=
  List.filter_eq_self.2 fun c hc => by simp [h.visible c hc]

/-- A clean text is not refused. -/
theorem read_eq (h : IsClean text) : read (String.ofList text) = .ok (parse text) := by
  have hfind : (scan text).find? Token.isOverlong = none :=
    List.find?_eq_none.2 fun t ht => by simp [h.convertible t ht]
  rw [MonkeyLang.read_eq, String.toList_ofList, hfind]

theorem readProgram_eq (h : IsClean text) : readProgram (String.ofList text) =
    if (parse text).diagnostics = [] then .ok (parse text).program
    else .error (.malformed (parse text).diagnostics) := by
  rw [readProgram, h.read_eq]
  simp only [List.isEmpty_iff]

end IsClean

/-- What is read as a program with a statement neither is blank nor begins with a slash. -/
theorem IsProgram.exists_head {text : List Char} (h : IsProgram text) :
    ∃ c, (Text.trim text).head? = some c ∧ c ≠ '/' := by
  by_contra hnone
  push Not at hnone
  simp only [Text.head?_trim] at hnone
  obtain ⟨first, others, hprogram⟩ := h.statement
  rcases currentOf_scan_of_blank hnone with hempty | hkind
  · rw [parse, hempty] at hprogram
    cases hprogram
  · exact diagnostics_ne_nil hkind h.sound

/-- A program is no command, and it is not blank: it is evaluated as it stands. -/
theorem request_of_isProgram {text : List Char} (hclean : IsClean text) (h : IsProgram text) :
    request text = .evaluation text := by
  obtain ⟨c, hc, hslash⟩ := h.exists_head
  have hblank : (Text.trim text).isEmpty = false := by
    cases htrim : Text.trim text with
    | nil => simp [htrim] at hc
    | cons d rest => rfl
  have hread : Command.read? text = none := by
    simp [Command.read?, hc, hslash]
  simp only [request, hclean.normalize_eq, hblank, hread]
  rfl

end Console

end MonkeyLang
