import MonkeyLang.Proofs.RoundTrip
import MonkeyLang.Proofs.Whole
import MonkeyLang.Eval.Node
import MonkeyLang.Syntax.Equality

/-!
# Functions show their source

A function is shown by its parameters and the statements of its body, in a layout of its own: the
body stands on a line between the braces, and that line is empty for a body without statements.
`function_display_reads` says that this text is read as the function literal again.
-/

namespace MonkeyLang

/-! ### The text of a body -/

/-- The layout of a body in the text of a function. -/
theorem scansTo_body {body : List Char} {us : List Token} (h : ScansTo body us) :
    ScansTo ('\x7b' :: '\n' :: (body ++ ['\n', '\x7d'])) (.sign .lbrace :: (us ++ [.sign .rbrace])) := by
  have hclosing : ScansTo ['\n', '\x7d'] [.sign .rbrace] :=
    .skip (by decide) (.char '\x7d' .nil (by decide))
  have hinner := h.append hclosing (endsWord_cons.2 (by decide))
  exact .char '\x7b' (hinner.skip (by decide)) (by decide)

/-! ### The text of a function -/

theorem Value.write_function (id : ObjectId) (parameters : List Identifier) (body : Node)
    (scope : FrameId) :
    (Value.function id parameters body scope).write =
      ['f', 'n'] ++ Node.writeItems '(' (parameters.map (·.name.toList)) ')' ++
        ' ' :: '\x7b' :: '\n' :: (body.writeBody ++ ['\n', '\x7d']) := by
  have hwrite : (Value.function id parameters body scope).write =
      ['f', 'n'] ++ Node.writeItems '(' (parameters.map (·.name.toList)) ')' ++
        [' ', '\x7b', '\n'] ++ body.writeBody ++ ['\n', '\x7d'] := rfl
  simp only [hwrite, List.append_assoc, List.cons_append, List.nil_append]

/-- A function literal consists of names and a block. -/
theorem Formed.function_cases {role : Role} {token : Token} {parameters : List Identifier}
    {body : Node} (h : Formed role (.function token parameters body)) :
    ∃ (names : List String) (ss : List Node), (∀ name ∈ names, IsName name) ∧
      (∀ s ∈ ss, Formed .statement s) ∧ token = .sign .function ∧
      parameters = names.map .ofName ∧ body = .block (.sign .lbrace) ss := by
  cases h with
  | @function names _ hnames hbody =>
    cases hbody with
    | @block ss hss => exact ⟨names, ss, hnames, hss, rfl, rfl, rfl⟩

/-- What a function is shown as spells its literal. -/
theorem exists_parse_function {role : Role} {token : Token} {parameters : List Identifier}
    {body : Node} (h : Formed role (.function token parameters body)) (id : ObjectId)
    (scope : FrameId) :
    ∃ first body',
      parse (Value.function id parameters body scope).write =
        ⟨.program [.expressionStatement first (.function token parameters body')], []⟩ ∧
      body'.withoutLeads = body.withoutLeads := by
  obtain ⟨names, ss, hnames, hss, rfl, rfl, rfl⟩ := h.function_cases
  obtain ⟨ss', us, hsame, hspelled, hscan⟩ :=
    written_statements fun s hs => written_of_formed (hss s hs)
  refine ⟨.sign .function, .block (.sign .lbrace) ss', ?_, ?_⟩
  · have hbody : ScansTo ('\x7b' :: '\n' ::
        ((Node.block (.sign .lbrace) ss).writeBody ++ ['\n', '\x7d'])) _ := scansTo_body hscan
    have hliteral : Spelled False 1 0 (.expression _) _ := .function names (.block hspelled)
    rw [parse, Value.write_function, (scansTo_function hnames hbody).scan_eq]
    exact parseTokens_statements (.lastStatement (.expressionStatement hliteral))
  · rw [Node.withoutLeads_block, Node.withoutLeads_block, hsame]

/-- **A function is shown by its source.**  Whatever the text that a function literal was read from,
the literal evaluates to a function, and what that function is shown as is read as a program of this
one literal, without a diagnostic: its parameters are the same, and its body is, up to the tokens
that expression statements began with. -/
theorem function_display_reads {text : List Char} {token : Token} {parameters : List Identifier}
    {body : Node} (h : .function token parameters body ∈ (parse text).program.subtrees)
    (call : CallRule) (frame : FrameId) (store : Store) :
    ∃ value first body',
      ((Node.function token parameters body).eval call frame).exec store =
        (.ok value, store.allocate.2) ∧
      value.kind? = some .function ∧ value.obstacle? = none ∧
      read value.display =
        .ok ⟨.program [.expressionStatement first (.function token parameters body')], []⟩ ∧
      body'.withoutLeads = body.withoutLeads := by
  obtain ⟨role, hformed⟩ : ∃ role, Formed role (.function token parameters body) := by
    rcases Node.mem_subtrees.1 h with heq | ⟨place, hplace, hmem⟩
    · obtain ⟨ss, hprogram, -⟩ := exists_formed_program text
      rw [hprogram] at heq
      cases heq
    · exact (formed_of_mem_places text place hplace).exists_of_mem_subtrees hmem
  obtain ⟨first, body', hparse, hbody⟩ := exists_parse_function hformed store.nextId frame
  refine ⟨.function store.nextId parameters body frame, first, body', rfl, rfl, ?_, ?_, hbody⟩
  · obtain ⟨names, ss, -, -, -, -, rfl⟩ := hformed.function_cases
    rfl
  · rw [read, Value.display, String.toList_ofList, hparse]
    rfl

/-- The last statement is a string of a brace and a newline; the first begins with the sign `-`, and
with a parenthesis in the text of the function. -/
theorem function_display_reads_quoted :
    let body : Node := .block (.sign .lbrace)
      [.expressionStatement (.sign .minus) (.unary (.sign .minus) "-" (.identifier (.ofName "x"))),
        .expressionStatement ⟨.string, "\x7d\n"⟩ (.string ⟨.string, "\x7d\n"⟩ "\x7d\n")]
    Node.function (.sign .function) [.ofName "x"] body ∈
        (parse "fn(x)\x7b-x \"\x7d\n\"\x7d".toList).program.subtrees ∧
      ∃ value first body',
        ((Node.function (.sign .function) [.ofName "x"] body).eval (callWithin maxCallDepth)
            Store.global).exec .initial = (.ok value, Store.initial.allocate.2) ∧
          value.kind? = some .function ∧ value.obstacle? = none ∧
          read value.display = .ok ⟨.program [.expressionStatement first
            (.function (.sign .function) [.ofName "x"] body')], []⟩ ∧
          body'.withoutLeads = body.withoutLeads := by
  intro body
  have hmem : Node.function (.sign .function) [.ofName "x"] body ∈
      (parse "fn(x)\x7b-x \"\x7d\n\"\x7d".toList).program.subtrees := by
    decide +kernel
  exact ⟨hmem, function_display_reads hmem (callWithin maxCallDepth) Store.global .initial⟩

end MonkeyLang
