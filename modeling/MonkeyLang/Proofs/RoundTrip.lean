import MonkeyLang.Proofs.Erasure
import MonkeyLang.Proofs.Formed
import MonkeyLang.Proofs.Reading

/-!
# Reading what was written

`read_render`: the canonical text of a program that was read from some text leaves no diagnostic
when it is read, and is read as the same program; only the tokens that expression statements began
with may be others, because parentheses are written anew.

The canonical text of every well-formed tree is followed down the tree (`written_of_formed`): its
tokens are a spelling of the tree.  `ScansTo` says which tokens a piece of text gives.
-/

namespace MonkeyLang

/-! ### Pieces of text and their tokens -/

/-- The text is read as these tokens wherever something follows that ends words. -/
def ScansTo (text : List Char) (ts : List Token) : Prop :=
  ∀ rest, EndsWord rest → scan (text ++ rest) = ts ++ scan rest

theorem EndsWord.append {text rest : List Char} (h : EndsWord text) (hrest : EndsWord rest) :
    EndsWord (text ++ rest) := by
  cases text with
  | nil => exact hrest
  | cons c text => exact h

namespace ScansTo

variable {text text' : List Char} {ts us : List Token}

theorem nil : ScansTo [] [] := fun _ _ => rfl

theorem append (h : ScansTo text ts) (h' : ScansTo text' us) (hends : EndsWord text') :
    ScansTo (text ++ text') (ts ++ us) := by
  intro rest hrest
  rw [List.append_assoc, h _ (hends.append hrest), h' _ hrest, List.append_assoc]

theorem scan_eq (h : ScansTo text ts) : scan text = ts := by
  simpa using h [] endsWord_nil

theorem skip {c : Char} (hc : isSpace c) (h : ScansTo text ts) : ScansTo (c :: text) ts := by
  intro rest hrest
  rw [List.cons_append, scan_space hc, h rest hrest]

theorem space (h : ScansTo text ts) : ScansTo (' ' :: text) ts :=
  h.skip (by decide)

theorem char (c : Char) (h : ScansTo text ts)
    (hc : TokenKind.ofChar c ≠ .illegal) :
    ScansTo (c :: text) (.sign (.ofChar c) :: ts) := by
  intro rest hrest
  rw [List.cons_append, scan_char hc, h rest hrest, List.cons_append]

theorem keyword (kind : TokenKind) (h : kind.IsKeyword) :
    ScansTo kind.text.toList [.sign kind] :=
  fun _ hrest => scan_keyword h hrest

theorem name {text : String} (h : IsName text) : ScansTo text.toList [⟨.ident, text⟩] := by
  intro rest hrest
  rw [scan_word h.1 h.2.1 hrest, h.2.2]
  rfl

theorem numeral {text : String} (h : IsNumeral text) : ScansTo text.toList [⟨.int, text⟩] :=
  fun _ hrest => scan_numeral h hrest

theorem quote (value : String) : ScansTo (Text.quote value.toList) [⟨.string, value⟩] :=
  fun rest _ => scan_quote value rest

/-- An operator or an equals sign with a space behind it. -/
theorem operator {kind : TokenKind} (hkind : kind = .assign ∨ kind.IsInfix)
    (h : ScansTo text ts) :
    ScansTo (kind.text.toList ++ ' ' :: text) (.sign kind :: ts) := by
  intro rest hrest
  have hspace : scan (' ' :: (text ++ rest)) = ts ++ scan rest := h.space rest hrest
  have hsign : scan (kind.text.toList ++ ' ' :: (text ++ rest)) =
      .sign kind :: scan (' ' :: (text ++ rest)) := by
    simp only [TokenKind.IsInfix, List.mem_cons, List.not_mem_nil, or_false] at hkind
    -- behind the first three an equals sign would belong to them, but a space follows
    rcases hkind with rfl | rfl | rfl | rfl | rfl | rfl | rfl | rfl | rfl
    · exact scan_equality (by simp) (by simp)
    · exact scan_equality (by simp) (by simp)
    · exact scan_equality (by simp) (by simp)
    all_goals exact scan_mark (by simp [TokenKind.IsMark]) _
  rw [List.append_assoc, List.cons_append, hsign, hspace, List.cons_append]

/-- An operator in front of what an expression starts with. -/
theorem signed {kind : TokenKind} {t : Token} (hkind : kind.IsPrefix) (h : ScansTo text (t :: ts))
    (ht : t.kind.StartsExpression) :
    ScansTo (kind.text.toList ++ text) (.sign kind :: t :: ts) := by
  intro rest hrest
  -- no expression starts with a token that begins with an equals sign
  have hhead : (text ++ rest).head? ≠ some '=' := by
    intro hhead
    obtain ⟨tail, htail⟩ := List.head?_eq_some_iff.1 hhead
    obtain ⟨t', us, hscan, hkind⟩ := scan_equals tail
    rw [← htail, h rest hrest, List.cons_append, List.cons.injEq] at hscan
    obtain ⟨rfl, -⟩ := hscan
    rcases hkind with hkind | hkind <;> exact ht.ne (by decide) hkind
  rw [List.append_assoc, List.cons_append, ← h rest hrest]
  rcases hkind with rfl | rfl
  · exact scan_equality (by simp) hhead
  · exact scan_mark (by simp [TokenKind.IsMark]) _

end ScansTo

/-! ### Trees and their canonical text -/

/-- The canonical text of the tree is read as a spelling of it.  The parentheses around operators
are no part of the tree and are kept apart here; a block ends with a brace, and anything may
follow. -/
def Written : Role → Node → Prop
  | .expression, e => ∃ e' us, e'.withoutLeads = e.withoutLeads ∧
      if e.isEnclosed then
        Spelled False 1 0 (.expression e') us ∧
          ScansTo e.write (.sign .lparen :: (us ++ [.sign .rparen]))
      else Spelled False Precedence.index.rank 0 (.expression e') us ∧ ScansTo e.write us
  | .statement, s => ∃ s' us, s'.withoutLeads = s.withoutLeads ∧
      Spelled False 1 0 (.statement s') us ∧ ScansTo s.write us
  | .block, b => ∃ b' us, b'.withoutLeads = b.withoutLeads ∧ Spelled False 1 0 (.block b') us ∧
      ∀ rest, scan (b.write ++ rest) = us ++ scan rest

/-- The canonical text of an expression may stand anywhere. -/
theorem Written.operand {e : Node} (h : Written .expression e) :
    ∃ e' us, e'.withoutLeads = e.withoutLeads ∧
      Spelled False Precedence.index.rank 0 (.expression e') us ∧ ScansTo e.write us := by
  obtain ⟨e', us, he, hus⟩ := h
  split at hus
  · exact ⟨e', _, he, .grouped hus.1, hus.2⟩
  · exact ⟨e', us, he, hus⟩

theorem Written.anywhere {e : Node} (h : Written .expression e) :
    ∃ e' us, e'.withoutLeads = e.withoutLeads ∧ Spelled False 1 0 (.expression e') us ∧
      ScansTo e.write us := by
  obtain ⟨e', us, he, hs, hscan⟩ := h.operand
  exact ⟨e', us, he, hs.mono (by decide), hscan⟩

theorem ScansTo.parenthesize {text : List Char} {ts : List Token} (h : ScansTo text ts) :
    ScansTo (Node.parenthesize text) (.sign .lparen :: (ts ++ [.sign .rparen])) :=
  .char '(' (h.append (.char ')' .nil (by decide)) (endsWord_cons.2 (by decide))) (by decide)

/-- The condition of an `if` is written with just one pair of parentheses around it. -/
theorem Written.condition {e : Node} (h : Written .expression e) :
    ∃ e' us, e'.withoutLeads = e.withoutLeads ∧ Spelled False 1 0 (.expression e') us ∧
      ScansTo (if e.isEnclosed then e.write else Node.parenthesize e.write)
        (.sign .lparen :: (us ++ [.sign .rparen])) := by
  obtain ⟨e', us, he, hus⟩ := h
  split at hus
  · next henclosed => exact ⟨e', us, he, hus.1, by rw [if_pos henclosed]; exact hus.2⟩
  · next henclosed =>
    refine ⟨e', us, he, hus.1.mono (by decide), ?_⟩
    rw [if_neg henclosed]
    exact hus.2.parenthesize

/-- An operator with its operands, in parentheses of its own. -/
theorem written_enclosed {e e' : Node} {text : List Char} {us : List Token}
    (henclosed : e.isEnclosed) (htext : e.write = Node.parenthesize text)
    (hs : Spelled False 1 0 (.expression e') us) (hscan : ScansTo text us)
    (he : e'.withoutLeads = e.withoutLeads) : Written .expression e := by
  refine ⟨e', us, he, ?_⟩
  rw [if_pos henclosed, htext]
  exact ⟨hs, hscan.parenthesize⟩

theorem written_unary {kind : TokenKind} {right : Node} (hkind : kind.IsPrefix)
    (h : Written .expression right) :
    Written .expression (.unary (.sign kind) kind.text right) := by
  obtain ⟨right', us, hright, hs, hscan⟩ := h.operand
  obtain ⟨t, us, rfl, ht⟩ := hs.starts
  exact written_enclosed rfl rfl (.unary hkind (by decide) (hs.mono (by decide)))
    (.signed hkind hscan ht) (congrArg (Node.unary (.sign kind) kind.text) hright)

theorem written_binary {kind : TokenKind} {left right : Node} (hkind : kind.IsInfix)
    (hl : Written .expression left) (hr : Written .expression right) :
    Written .expression (.binary (.sign kind) left kind.text right) := by
  obtain ⟨left', ls, hleft, hls, hlscan⟩ := hl.operand
  obtain ⟨right', rs, hright, hrs, hrscan⟩ := hr.operand
  have hlt := hkind.rank_lt_unary
  refine written_enclosed rfl rfl (.binary hkind hkind.lowest_lt.le (hls.mono ?_) (hrs.mono ?_)) ?_
    (congrArg₂ (Node.binary (.sign kind) · kind.text ·) hleft hright)
  · exact hlt.le.trans (by decide)
  · exact hlt.trans (by decide)
  · exact hlscan.append (.space (.operator (.inr hkind) hrscan)) (endsWord_cons.2 (by decide))

theorem written_index {target position : Node} (ht : Written .expression target)
    (hp : Written .expression position) :
    Written .expression (.index (.sign .lbracket) target position) := by
  obtain ⟨target', ts, htarget, hts, htscan⟩ := ht.operand
  obtain ⟨position', ps, hposition, hps, hpscan⟩ := hp.anywhere
  refine written_enclosed rfl rfl (.index hts hps) ?_
    (congrArg₂ (Node.index (.sign .lbracket)) htarget hposition)
  refine htscan.append (.char '[' ?_ (by decide)) (endsWord_cons.2 (by decide))
  exact hpscan.append (.char ']' .nil (by decide)) (endsWord_cons.2 (by decide))

/-! ### Lists of trees -/

theorem scansTo_intercalate_cons {sep a b : List Char} {cs : List (List Char)} {t : Token}
    {ts us : List Token} (ha : ScansTo a ts) (hb : ScansTo (sep.intercalate (b :: cs)) us)
    (hsep : ∀ {text : List Char} {vs : List Token}, ScansTo text vs →
      ScansTo (sep ++ text) (t :: vs)) (hends : EndsWord sep) (hne : sep ≠ []) :
    ScansTo (sep.intercalate (a :: b :: cs)) (ts ++ t :: us) := by
  rw [List.intercalate_cons_cons, List.append_assoc]
  refine ha.append (hsep hb) ?_
  cases sep with
  | nil => exact absurd rfl hne
  | cons c sep => exact hends

/-- Items are written with a comma and a space between them. -/
theorem ScansTo.comma {text : List Char} {ts : List Token} (h : ScansTo text ts) :
    ScansTo ([',', ' '] ++ text) (.sign .comma :: ts) :=
  .char ',' h.space (by decide)

/-- Statements are written with a semicolon and a space between them. -/
theorem ScansTo.semicolon {text : List Char} {ts : List Token} (h : ScansTo text ts) :
    ScansTo ([';', ' '] ++ text) (.sign .semicolon :: ts) :=
  .char ';' h.space (by decide)

theorem written_items {es : List Node} (h : ∀ e ∈ es, Written .expression e) :
    ∃ es' us, es'.map Node.withoutLeads = es.map Node.withoutLeads ∧
      Spelled False 1 0 (.items es') us ∧
      ScansTo ([',', ' '].intercalate (Node.writeEach es)) us := by
  induction es with
  | nil => exact ⟨[], [], rfl, .noItems, .nil⟩
  | cons e es ih =>
    obtain ⟨e', ts, he, hs, hscan⟩ := (h e List.mem_cons_self).anywhere
    cases es with
    | nil => exact ⟨[e'], ts, by simp [he], .lastItem hs, by simpa [Node.writeEach] using hscan⟩
    | cons e₂ es =>
      obtain ⟨es', us, hes, hss, hscans⟩ := ih fun e he => h e (List.mem_cons_of_mem _ he)
      cases es' with
      | nil => simp at hes
      | cons e₂' es' =>
        refine ⟨e' :: e₂' :: es', ts ++ .sign .comma :: us, ?_, .moreItems hs hss, ?_⟩
        · rw [List.map_cons, he, hes]
          rfl
        · exact scansTo_intercalate_cons hscan hscans .comma (endsWord_cons.2 (by decide)) (by simp)

theorem written_pairs {ps : List (Node × Node)} (hk : ∀ p ∈ ps, Written .expression p.1)
    (hv : ∀ p ∈ ps, Written .expression p.2) :
    ∃ ps' us, ps'.map (fun p => (p.1.withoutLeads, p.2.withoutLeads)) =
        ps.map (fun p => (p.1.withoutLeads, p.2.withoutLeads)) ∧
      Spelled False 1 0 (.pairs ps') us ∧
      ScansTo ([',', ' '].intercalate (Node.writePairs ps)) us := by
  induction ps with
  | nil => exact ⟨[], [], rfl, .noPairs, .nil⟩
  | cons p ps ih =>
    obtain ⟨key, value⟩ := p
    obtain ⟨key', ks, hkey, hks, hkscan⟩ := (hk _ List.mem_cons_self).anywhere
    obtain ⟨value', vs, hvalue, hvs, hvscan⟩ := (hv _ List.mem_cons_self).anywhere
    have hscan : ScansTo (key.write ++ ':' :: value.write) (ks ++ .sign .colon :: vs) :=
      hkscan.append (.char ':' hvscan (by decide)) (endsWord_cons.2 (by decide))
    cases ps with
    | nil =>
      exact ⟨[(key', value')], _, by simp_all, .lastPair hks hvs,
        by simpa [Node.writePairs] using hscan⟩
    | cons p ps =>
      obtain ⟨ps', us, hps, hss, hscans⟩ := ih (fun p hp => hk p (List.mem_cons_of_mem _ hp))
        fun p hp => hv p (List.mem_cons_of_mem _ hp)
      refine ⟨(key', value') :: ps', _, ?_, .morePairs hks hvs hss, ?_⟩
      · rw [List.map_cons, hps, List.map_cons]
        simp_all
      · have hboth := scansTo_intercalate_cons hscan hscans .comma (endsWord_cons.2 (by decide))
          (by simp)
        simpa [Node.writePairs] using hboth

theorem written_statements {ss : List Node} (h : ∀ s ∈ ss, Written .statement s) :
    ∃ ss' us, ss'.map Node.withoutLeads = ss.map Node.withoutLeads ∧
      Spelled False 1 0 (.statements ss') us ∧
      ScansTo ([';', ' '].intercalate (Node.writeEach ss)) us := by
  induction ss with
  | nil => exact ⟨[], [], rfl, .noStatements, .nil⟩
  | cons s ss ih =>
    obtain ⟨s', ts, hs, hspell, hscan⟩ := h s List.mem_cons_self
    cases ss with
    | nil =>
      exact ⟨[s'], ts, by simp [hs], .lastStatement hspell, by simpa [Node.writeEach] using hscan⟩
    | cons s₂ ss =>
      obtain ⟨ss', us, hss, hspells, hscans⟩ := ih fun s hs => h s (List.mem_cons_of_mem _ hs)
      refine ⟨s' :: ss', ts ++ .sign .semicolon :: us, ?_, .moreStatements hspell hspells, ?_⟩
      · rw [List.map_cons, hs, hss]
        rfl
      · exact scansTo_intercalate_cons hscan hscans .semicolon (endsWord_cons.2 (by decide))
          (by simp)

/-! ### The induction -/

/-- An expression that is written without parentheses of its own. -/
theorem written_open {e e' : Node} {us : List Token} (henclosed : e.isEnclosed = false)
    (hs : Spelled False Precedence.index.rank 0 (.expression e') us) (hscan : ScansTo e.write us)
    (he : e'.withoutLeads = e.withoutLeads) : Written .expression e := by
  refine ⟨e', us, he, ?_⟩
  rw [if_neg (by simp [henclosed])]
  exact ⟨hs, hscan⟩

theorem written_boolean (value : Bool) : Written .expression (.boolean (.ofBool value) value) := by
  refine written_open rfl (.boolean value) ?_ rfl
  cases value
  · exact .keyword _ (by simp [TokenKind.IsKeyword])
  · exact .keyword _ (by simp [TokenKind.IsKeyword])

theorem exists_parenthesize {e : Node} (h : e.isEnclosed) :
    ∃ text, e.write = Node.parenthesize text := by
  cases e with
  | unary | binary | index => exact ⟨_, rfl⟩
  | _ => simp [Node.isEnclosed] at h

/-- The keyword, and the condition in parentheses right behind it. -/
theorem scansTo_condition {condition : Node} {cs : List Token}
    (h : ScansTo (if condition.isEnclosed then condition.write
      else Node.parenthesize condition.write) cs) :
    ScansTo (['i', 'f'] ++ (if condition.isEnclosed then condition.write
      else Node.parenthesize condition.write)) (.sign .if :: cs) := by
  have hif : ScansTo ['i', 'f'] [.sign .if] :=
    .keyword .if (by simp [TokenKind.IsKeyword])
  refine hif.append h ?_
  split
  · next henclosed =>
    obtain ⟨text, htext⟩ := exists_parenthesize henclosed
    rw [htext]
    exact endsWord_cons.2 (by decide)
  · exact endsWord_cons.2 (by decide)

theorem written_conditional {condition consequence : Node} (hc : Written .expression condition)
    (hb : Written .block consequence) :
    Written .expression (.conditional (.sign .if) condition consequence none) := by
  obtain ⟨c', cs, hcondition, hcs, hcscan⟩ := hc.condition
  obtain ⟨b', bs, hconsequence, hbs, hbscan⟩ := hb
  refine written_open rfl (.conditional hcs hbs) ?_
    (congrArg₂ (Node.conditional (.sign .if) · · none) hcondition hconsequence)
  have hblock : ScansTo consequence.write bs := fun rest _ => hbscan rest
  have hscan := (scansTo_condition hcscan).append hblock.space (endsWord_cons.2 (by decide))
  simpa [Node.write] using hscan

theorem written_alternative {condition consequence alternative : Node}
    (hc : Written .expression condition) (hb : Written .block consequence)
    (ha : Written .block alternative) :
    Written .expression (.conditional (.sign .if) condition consequence (some alternative)) := by
  obtain ⟨c', cs, hcondition, hcs, hcscan⟩ := hc.condition
  obtain ⟨b', bs, hconsequence, hbs, hbscan⟩ := hb
  obtain ⟨a', as, halternative, has, hascan⟩ := ha
  refine written_open rfl (.alternative hcs hbs has) ?_ ?_
  · have helse : ScansTo ['e', 'l', 's', 'e'] [.sign .else] :=
      .keyword .else (by simp [TokenKind.IsKeyword])
    have hblock : ScansTo alternative.write as := fun rest _ => hascan rest
    have hbranch := helse.append hblock.space (endsWord_cons.2 (by decide))
    have hblocks : ScansTo (consequence.write ++ (['e', 'l', 's', 'e'] ++ ' ' :: alternative.write))
        (bs ++ ([.sign .else] ++ as)) := by
      intro rest hrest
      rw [List.append_assoc, hbscan, hbranch rest hrest, ← List.append_assoc]
    have hscan := (scansTo_condition hcscan).append hblocks.space (endsWord_cons.2 (by decide))
    simpa [Node.write] using hscan
  · change Node.conditional _ c'.withoutLeads b'.withoutLeads (some a'.withoutLeads) = _
    rw [hcondition, hconsequence, halternative]
    rfl

theorem scansTo_names {names : List String} (h : ∀ n ∈ names, IsName n) :
    ScansTo ([',', ' '].intercalate (names.map String.toList)) (nameTokens names) := by
  cases names with
  | nil => exact .nil
  | cons n names =>
    induction names generalizing n with
    | nil => simpa [nameTokens] using ScansTo.name (h n (by simp))
    | cons n' names ih =>
      exact scansTo_intercalate_cons (.name (h n (by simp)))
        (ih n' fun n hn => h n (List.mem_cons_of_mem _ hn)) .comma (endsWord_cons.2 (by decide))
        (by simp)

theorem ScansTo.items {texts : List (List Char)} {ts : List Token} (opening closing : Char)
    (h : ScansTo ([',', ' '].intercalate texts) ts) (hopening : TokenKind.ofChar opening ≠ .illegal)
    (hclosing : TokenKind.ofChar closing ≠ .illegal) (hends : EndsWord [closing]) :
    ScansTo (Node.writeItems opening texts closing)
      (.sign (.ofChar opening) :: (ts ++ [.sign (.ofChar closing)])) :=
  .char opening (h.append (.char closing .nil hclosing) hends) hopening

/-- The head of a function literal, and a body behind it in whatever layout. -/
theorem scansTo_function {names : List String} {body : List Char} {bs : List Token}
    (hnames : ∀ n ∈ names, IsName n) (hbody : ScansTo body bs) :
    ScansTo (['f', 'n'] ++
        Node.writeItems '(' ((names.map Identifier.ofName).map (·.name.toList)) ')' ++ ' ' :: body)
      (.sign .function :: .sign .lparen :: (nameTokens names ++ .sign .rparen :: bs)) := by
  have hfn : ScansTo ['f', 'n'] [.sign .function] :=
    .keyword .function (by simp [TokenKind.IsKeyword])
  have hitems := (scansTo_names hnames).items '(' ')' (by decide) (by decide)
    (endsWord_cons.2 (by decide))
  have hscan := (hfn.append hitems (endsWord_cons.2 (by decide))).append hbody.space
    (endsWord_cons.2 (by decide))
  have htexts : (names.map Identifier.ofName).map (·.name.toList) = names.map String.toList := by
    simp [Identifier.ofName]
  have htokens : .sign .function :: .sign .lparen :: (nameTokens names ++ .sign .rparen :: bs) =
      [.sign .function] ++ (.sign .lparen :: (nameTokens names ++ [.sign .rparen])) ++ bs := by
    simp
  rw [htexts, htokens]
  exact hscan

theorem written_function {names : List String} {body : Node} (hnames : ∀ n ∈ names, IsName n)
    (hb : Written .block body) :
    Written .expression (.function (.sign .function) (names.map .ofName) body) := by
  obtain ⟨b', bs, hbody, hbs, hbscan⟩ := hb
  have hblock : ScansTo body.write bs := fun rest _ => hbscan rest
  refine written_open rfl (.function names hbs) ?_
    (congrArg (Node.function (.sign .function) _) hbody)
  rw [Node.write]
  exact scansTo_function hnames hblock

theorem written_call {callee : Node} {arguments : List Node} (hf : Written .expression callee)
    (ha : ∀ a ∈ arguments, Written .expression a) :
    Written .expression (.call (.sign .lparen) callee arguments) := by
  obtain ⟨f', fs, hcallee, hfs, hfscan⟩ := hf.operand
  obtain ⟨as', us, has, hus, hscan⟩ := written_items ha
  refine written_open rfl (.call (hfs.mono (by decide)) hus) ?_ ?_
  · have hitems := hscan.items '(' ')' (by decide) (by decide)
      (endsWord_cons.2 (by decide))
    exact hfscan.append hitems (endsWord_cons.2 (by decide))
  · rw [Node.withoutLeads_call, Node.withoutLeads_call, hcallee, has]

theorem written_array {elements : List Node} (h : ∀ e ∈ elements, Written .expression e) :
    Written .expression (.array (.sign .lbracket) elements) := by
  obtain ⟨es', us, hes, hus, hscan⟩ := written_items h
  refine written_open rfl (.array hus) ?_ ?_
  · exact hscan.items '[' ']' (by decide) (by decide)
      (endsWord_cons.2 (by decide))
  · rw [Node.withoutLeads_array, Node.withoutLeads_array, hes]

theorem written_hash {pairs : List (Node × Node)} (hk : ∀ p ∈ pairs, Written .expression p.1)
    (hv : ∀ p ∈ pairs, Written .expression p.2) :
    Written .expression (.hash (.sign .lbrace) pairs) := by
  obtain ⟨ps', us, hps, hus, hscan⟩ := written_pairs hk hv
  refine written_open rfl (.hash hus) ?_ ?_
  · exact hscan.items '\x7b' '\x7d' (by decide) (by decide)
      (endsWord_cons.2 (by decide))
  · rw [Node.withoutLeads_hash, Node.withoutLeads_hash, hps]

theorem written_letStatement {name : String} {value : Node} (hname : IsName name)
    (h : Written .expression value) :
    Written .statement (.letStatement (.sign .let) (.ofName name) value) := by
  obtain ⟨v', vs, hvalue, hvs, hscan⟩ := h.anywhere
  refine ⟨.letStatement (.sign .let) (.ofName name) v', _,
    congrArg (Node.letStatement (.sign .let) (.ofName name)) hvalue, .letStatement name hvs, ?_⟩
  have hlet : ScansTo ['l', 'e', 't'] [.sign .let] :=
    .keyword .let (by simp [TokenKind.IsKeyword])
  have hassign : ScansTo (['='] ++ ' ' :: value.write) (.sign .assign :: vs) :=
    .operator (.inl rfl) hscan
  have htarget := (ScansTo.name hname).append hassign.space (endsWord_cons.2 (by decide))
  have hall := hlet.append htarget.space (endsWord_cons.2 (by decide))
  simpa [Node.write, Identifier.ofName, TokenKind.text] using hall

theorem written_returnStatement {value : Node} (h : Written .expression value) :
    Written .statement (.returnStatement (.sign .return) (some value)) := by
  obtain ⟨v', vs, hvalue, hvs, hscan⟩ := h.anywhere
  refine ⟨.returnStatement (.sign .return) (some v'), _,
    congrArg (fun v => Node.returnStatement (.sign .return) (some v)) hvalue,
    .returnStatement hvs, ?_⟩
  have hreturn : ScansTo ['r', 'e', 't', 'u', 'r', 'n'] [.sign .return] :=
    .keyword .return (by simp [TokenKind.IsKeyword])
  exact hreturn.append hscan.space (endsWord_cons.2 (by decide))

theorem written_expressionStatement {first : Token} {e : Node} (h : Written .expression e) :
    Written .statement (.expressionStatement first e) := by
  obtain ⟨e', us, he, hs, hscan⟩ := h.anywhere
  obtain ⟨t, us, rfl, -⟩ := hs.starts
  exact ⟨.expressionStatement t e', _, congrArg (Node.expressionStatement .eof) he,
    .expressionStatement hs, hscan⟩

theorem written_block {ss : List Node} (h : ∀ s ∈ ss, Written .statement s) :
    Written .block (.block (.sign .lbrace) ss) := by
  obtain ⟨ss', us, hss, hs, hscan⟩ := written_statements h
  refine ⟨.block (.sign .lbrace) ss', _, ?_, .block hs, fun rest => ?_⟩
  · rw [Node.withoutLeads_block, Node.withoutLeads_block, hss]
  · have hopening : ∀ text, scan ('\x7b' :: ' ' :: text) = .sign .lbrace :: scan text := by
      intro text
      rw [scan_char (by decide), scan_space (by decide)]
      rfl
    have hclosing : scan ('\x7d' :: rest) = .sign .rbrace :: scan rest := scan_char (by decide) rest
    cases ss with
    | nil =>
      obtain rfl : us = [] := by simpa [Node.writeEach] using hscan.scan_eq.symm
      exact (hopening _).trans (congrArg _ hclosing)
    | cons s ss =>
      have hbody := hscan (' ' :: '\x7d' :: rest) (endsWord_cons.2 (by decide))
      rw [scan_space (by decide), hclosing] at hbody
      have hall := (hopening _).trans (congrArg (_ :: ·) hbody)
      simpa [Node.write, Node.writeBlock, Node.writeEach] using hall

theorem written_of_formed {role : Role} {node : Node} (h : Formed role node) :
    Written role node := by
  induction h with
  | identifier hname => exact written_open rfl (.identifier _) (.name hname) rfl
  | integer hliteral hvalue hle =>
    exact written_open rfl (.integer hvalue hle) (.numeral hliteral) rfl
  | string value => exact written_open rfl (.string value) (.quote value) rfl
  | boolean value => exact written_boolean value
  | unary hkind _ ih => exact written_unary hkind ih
  | binary hkind _ _ ihleft ihright => exact written_binary hkind ihleft ihright
  | conditional _ _ ihc ihb => exact written_conditional ihc ihb
  | alternative _ _ _ ihc ihb iha => exact written_alternative ihc ihb iha
  | function hnames _ ih => exact written_function hnames ih
  | call _ _ ihf iha => exact written_call ihf iha
  | array _ ih => exact written_array ih
  | index _ _ iht ihp => exact written_index iht ihp
  | hash _ _ ihk ihv => exact written_hash ihk ihv
  | letStatement hname _ ih => exact written_letStatement hname ih
  | bareReturn =>
    exact ⟨_, _, rfl, .bareReturn, .keyword .return (by simp [TokenKind.IsKeyword])⟩
  | returnStatement _ ih => exact written_returnStatement ih
  | expressionStatement _ ih => exact written_expressionStatement ih
  | block _ ih => exact written_block ih

/-! ### Programs -/

/-- The canonical text of a well-formed program is read as that program. -/
theorem exists_parse_write {ss : List Node} (h : ∀ s ∈ ss, Formed .statement s) :
    ∃ again, parse (Node.program ss).write = ⟨again, []⟩ ∧
      again.withoutLeads = (Node.program ss).withoutLeads := by
  obtain ⟨ss', us, hss, hs, hscan⟩ := written_statements fun s hs => written_of_formed (h s hs)
  refine ⟨.program ss', ?_, by rw [Node.withoutLeads_program, Node.withoutLeads_program, hss]⟩
  rw [parse, Node.write, hscan.scan_eq]
  exact parseTokens_statements hs

/-- **The round trip.**  Whatever the text, the program that was read from it is read again from
its canonical text, without a diagnostic and up to the tokens that expression statements began
with, and so its canonical text is the same. -/
theorem read_render (text : List Char) :
    ∃ again, read (parse text).program.render = .ok ⟨again, []⟩ ∧
      again.withoutLeads = (parse text).program.withoutLeads ∧
      again.render = (parse text).program.render := by
  obtain ⟨ss, hprogram, hss⟩ := exists_formed_program text
  obtain ⟨again, hparse, hagain⟩ := exists_parse_write hss
  rw [← hprogram] at hparse hagain
  refine ⟨again, ?_, hagain, ?_⟩
  · rw [read, Node.render, String.toList_ofList, hparse]
    rfl
  · rw [Node.render, Node.write_eq_of_withoutLeads_eq hagain, Node.render]

end MonkeyLang
