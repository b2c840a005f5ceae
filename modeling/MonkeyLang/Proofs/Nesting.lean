import MonkeyLang.Proofs.Balance
import MonkeyLang.Proofs.Subtree
import MonkeyLang.Proofs.Yield

/-!
# How brackets are nested

`unclosed` matches the brackets of some tokens by their kinds: it finds those that are left open,
and is `none` if one is closed that is not the innermost open one.  The count of open brackets that
the console keeps, which knows of no kinds, is the number of these (`depthBehind_eq_length`).

* `Spelled.unclosedFrom_append`: tokens that spell a phrase leave no bracket open if no brace is
  missing at their end;
* `Spelled.leavesOpen`: otherwise the brackets left open are the braces of those blocks of the
  phrase that are not closed.

`brackets_nest` puts this together for the texts that leave no diagnostics.
-/

namespace MonkeyLang

open Console

/-! ### Matching brackets -/

/-- An opening bracket and the tokens behind it. -/
structure Opening where
  bracket : Token
  behind : List Token

/-- Closes the innermost open bracket, which must be of the given kind. -/
def closeInnermost (kind : TokenKind) : List Opening → Option (List Opening)
  | [] => none
  | innermost :: opened => if innermost.bracket.kind = kind then some opened else none

/-- The brackets that are open behind a token, the innermost one first, given those that are open
before it; `none` if it closes a bracket that is not the innermost. -/
def openedAfter (opened : List Opening) (t : Token) (behind : List Token) :
    Option (List Opening) :=
  match t.kind with
  | .lparen | .lbracket | .lbrace => some (⟨t, behind⟩ :: opened)
  | .rparen => closeInnermost .lparen opened
  | .rbracket => closeInnermost .lbracket opened
  | .rbrace => closeInnermost .lbrace opened
  | _ => some opened

/-- The brackets that are open behind some tokens, given those that are open before them. -/
def unclosedFrom (opened : List Opening) : List Token → Option (List Opening)
  | [] => some opened
  | t :: ts => (openedAfter opened t ts).bind fun opened => unclosedFrom opened ts

/-- The brackets that some tokens leave open. -/
def unclosed (ts : List Token) : Option (List Opening) :=
  unclosedFrom [] ts

variable {loose : Prop} {m k : Nat} {φ : Phrase} {t : Token} {ts us : List Token}
  {opened found : List Opening}

@[simp] theorem unclosedFrom_nil : unclosedFrom opened [] = some opened := rfl

/-- What is closed is the innermost open bracket. -/
theorem exists_of_closeInnermost {kind : TokenKind}
    (h : closeInnermost kind opened = some found) :
    ∃ innermost, opened = innermost :: found ∧ innermost.bracket.kind = kind := by
  cases opened with
  | nil => cases h
  | cons innermost opened =>
    rw [closeInnermost] at h
    split at h
    · next hkind => exact ⟨innermost, by rw [Option.some.inj h], hkind⟩
    · cases h

theorem length_openedAfter (h : openedAfter opened t us = some found) :
    depthAfter opened.length t = found.length := by
  unfold openedAfter at h
  unfold depthAfter
  cases hkind : t.kind <;> simp only [hkind] at h ⊢
  case rparen | rbracket | rbrace =>
    obtain ⟨innermost, rfl, -⟩ := exists_of_closeInnermost h
    rfl
  all_goals
    obtain rfl := Option.some.inj h
    rfl

theorem mem_of_openedAfter (h : openedAfter opened t us = some found) {o : Opening}
    (ho : o ∈ found) : o ∈ opened ∨ o = ⟨t, us⟩ := by
  unfold openedAfter at h
  split at h
  case h_1 | h_2 | h_3 =>
    obtain rfl := Option.some.inj h
    exact (List.mem_cons.1 ho).symm
  case h_4 | h_5 | h_6 =>
    obtain ⟨innermost, rfl, -⟩ := exists_of_closeInnermost h
    exact .inl (List.mem_cons_of_mem innermost ho)
  case h_7 =>
    obtain rfl := Option.some.inj h
    exact .inl ho

/-- If all brackets match, their kinds do not matter for how many are open. -/
theorem depthBehind_eq_length (h : unclosedFrom opened ts = some found) :
    depthBehind opened.length ts = found.length := by
  induction ts generalizing opened with
  | nil =>
    obtain rfl := Option.some.inj h
    rfl
  | cons t ts ih =>
    obtain ⟨opened', hopened, hrest⟩ := Option.bind_eq_some_iff.1 h
    rw [depthBehind_cons, length_openedAfter hopened, ih hrest]

/-- A bracket that is found open is one of the tokens, unless it was open before them. -/
theorem suffix_of_unclosedFrom (h : unclosedFrom opened ts = some found) :
    ∀ o ∈ found, o ∈ opened ∨ o.bracket :: o.behind <:+ ts := by
  induction ts generalizing opened with
  | nil =>
    obtain rfl := Option.some.inj h
    exact fun o ho => .inl ho
  | cons t ts ih =>
    obtain ⟨opened', hopened, hrest⟩ := Option.bind_eq_some_iff.1 h
    intro o ho
    rcases ih hrest o ho with ho | ho
    · rcases mem_of_openedAfter hopened ho with ho | rfl
      · exact .inl ho
      · exact .inr List.suffix_rfl
    · exact .inr (ho.trans (List.suffix_cons t ts))

/-! ### Brackets of spellings -/

/-- The kinds of token that are no brackets. -/
def TokenKind.IsPlain (kind : TokenKind) : Prop :=
  kind ∉ [.lparen, .rparen, .lbracket, .rbracket, .lbrace, .rbrace]

instance (kind : TokenKind) : Decidable kind.IsPlain :=
  inferInstanceAs (Decidable (kind ∉ _))

theorem unclosedFrom_sign {kind : TokenKind} (h : kind.IsPlain) :
    unclosedFrom opened (.sign kind :: ts) = unclosedFrom opened ts := by
  cases kind <;> first
    | rfl
    | simp [TokenKind.IsPlain] at h

@[simp] theorem unclosedFrom_ident (name : String) :
    unclosedFrom opened (⟨.ident, name⟩ :: ts) = unclosedFrom opened ts := rfl

@[simp] theorem unclosedFrom_lparen : unclosedFrom opened (.sign .lparen :: ts) =
    unclosedFrom (⟨.sign .lparen, ts⟩ :: opened) ts := rfl

@[simp] theorem unclosedFrom_lbracket : unclosedFrom opened (.sign .lbracket :: ts) =
    unclosedFrom (⟨.sign .lbracket, ts⟩ :: opened) ts := rfl

@[simp] theorem unclosedFrom_lbrace : unclosedFrom opened (.sign .lbrace :: ts) =
    unclosedFrom (⟨.sign .lbrace, ts⟩ :: opened) ts := rfl

@[simp] theorem unclosedFrom_rparen : unclosedFrom (⟨.sign .lparen, us⟩ :: opened)
    (.sign .rparen :: ts) = unclosedFrom opened ts := rfl

@[simp] theorem unclosedFrom_rbracket : unclosedFrom (⟨.sign .lbracket, us⟩ :: opened)
    (.sign .rbracket :: ts) = unclosedFrom opened ts := rfl

@[simp] theorem unclosedFrom_rbrace : unclosedFrom (⟨.sign .lbrace, us⟩ :: opened)
    (.sign .rbrace :: ts) = unclosedFrom opened ts := rfl

theorem TokenKind.IsPrefix.isPlain {kind : TokenKind} (h : kind.IsPrefix) : kind.IsPlain := by
  rcases h with rfl | rfl <;> decide

theorem TokenKind.IsInfix.isPlain {kind : TokenKind} (h : kind.IsInfix) : kind.IsPlain := by
  simp only [IsInfix, List.mem_cons, List.not_mem_nil, or_false] at h
  rcases h with rfl | rfl | rfl | rfl | rfl | rfl | rfl | rfl <;> decide

theorem unclosedFrom_nameTokens (names : List String) (opened : List Opening)
    (behind : List Token) :
    unclosedFrom opened (nameTokens names ++ behind) = unclosedFrom opened behind := by
  have hothers : ∀ others : List String, unclosedFrom opened
      ((others.flatMap fun name => [.sign .comma, ⟨.ident, name⟩]) ++ behind) =
        unclosedFrom opened behind := by
    intro others
    induction others with
    | nil => rfl
    | cons name others ih => exact ih
  cases names with
  | nil => rfl
  | cons name names => exact hothers names

/-- Tokens that spell a phrase close all brackets that they open, if no brace is missing. -/
theorem Spelled.unclosedFrom_append (h : Spelled loose m k φ ts) (hk : k = 0)
    (opened : List Opening) (behind : List Token) :
    unclosedFrom opened (ts ++ behind) = unclosedFrom opened behind := by
  induction h generalizing opened behind with
  | identifier | integer | string | noItems | noPairs | noStatements | bareReturn => rfl
  | boolean value => cases value <;> rfl
  | grouped _ ih | array _ ih | hash _ ih | block _ ih => simp [ih]
  | unary hkind _ _ ih => simp [unclosedFrom_sign, hkind.isPlain, ih hk]
  | binary hkind _ _ _ ihleft ihright =>
    simp [unclosedFrom_sign, hkind.isPlain, ihleft, ihright hk]
  | conditional _ _ ihcondition ihconsequence =>
    simp (disch := decide) [unclosedFrom_sign, ihcondition, ihconsequence hk]
  | alternative _ _ _ ihcondition ihconsequence ihalternative =>
    simp (disch := decide) [unclosedFrom_sign, ihcondition, ihconsequence, ihalternative hk]
  | function names _ ih =>
    simp (disch := decide) [unclosedFrom_sign, unclosedFrom_nameTokens, ih hk]
  | call _ _ ihcallee iharguments => simp [ihcallee, iharguments]
  | index _ _ ihtarget ihposition => simp [ihtarget, ihposition]
  | lastItem _ ih | lastStatement _ ih | expressionStatement _ ih => exact ih hk opened behind
  | moreItems _ _ ihe ihes => simp (disch := decide) [unclosedFrom_sign, ihe, ihes]
  | lastPair _ _ ihkey ihvalue => simp (disch := decide) [unclosedFrom_sign, ihkey, ihvalue]
  | morePairs _ _ _ ihkey ihvalue ihpairs =>
    simp (disch := decide) [unclosedFrom_sign, ihkey, ihvalue, ihpairs]
  | openBlock => omega
  | moreStatements _ _ ihs ihss => simp (disch := decide) [unclosedFrom_sign, ihs, ihss hk]
  | adjacentStatements _ _ _ ihs ihss => simp [ihs, ihss hk]
  | letStatement name _ ih => simp (disch := decide) [unclosedFrom_sign, ih hk]
  | returnStatement _ ih => simp (disch := decide) [unclosedFrom_sign, ih hk]

/-! ### Blocks that are not closed -/

namespace Node

/-- The blocks that a conditional or a function is made of. -/
def branches : Node → List Node
  | conditional _ _ consequence alternative => consequence :: alternative.toList
  | function _ _ body => [body]
  | _ => []

/-- The block is one of a conditional or a function in the tree. -/
def HasBranch (node b : Node) : Prop :=
  ∃ part ∈ node.subtrees, b ∈ part.branches

theorem HasBranch.own {node b : Node} (h : b ∈ node.branches) : node.HasBranch b :=
  ⟨node, mem_subtrees.2 (.inl rfl), h⟩

theorem HasBranch.of_mem_places {node part b : Node} (role : Role) (h : part.HasBranch b)
    (hplace : (role, part) ∈ node.places) : node.HasBranch b := by
  obtain ⟨inner, hinner, hb⟩ := h
  exact ⟨inner, mem_subtrees.2 (.inr ⟨(role, part), hplace, hinner⟩), hb⟩

end Node

/-- The block is the phrase, or one of a conditional or a function in it. -/
def Phrase.HasBlock : Phrase → Node → Prop
  | .expression e, b | .statement e, b => e.HasBranch b
  | .block c, b => b = c ∨ c.HasBranch b
  | .statements ns, b | .items ns, b => ∃ n ∈ ns, n.HasBranch b
  | .pairs ps, b => ∃ p ∈ ps, p.1.HasBranch b ∨ p.2.HasBranch b

theorem Phrase.HasBlock.hasBranch {c b node : Node} (h : (Phrase.block c).HasBlock b)
    (hbranch : c ∈ node.branches) (hplace : (.block, c) ∈ node.places) : node.HasBranch b := by
  rcases h with rfl | h
  · exact .own hbranch
  · exact h.of_mem_places _ hplace

theorem Phrase.HasBlock.cons {s b : Node} {ss : List Node} (h : (Phrase.statements ss).HasBlock b) :
    (Phrase.statements (s :: ss)).HasBlock b := by
  obtain ⟨n, hn, hb⟩ := h
  exact ⟨n, List.mem_cons_of_mem s hn, hb⟩

/-- The bracket is the brace of a block of the phrase, and that block is not closed. -/
def Opening.OpensBlock (loose : Prop) (o : Opening) (φ : Phrase) : Prop :=
  ∃ b k, φ.HasBlock b ∧ Spelled loose 1 (k + 1) (.block b) (o.bracket :: o.behind)

/-- Some tokens leave open the braces of blocks of the phrase, as many as `k`. -/
def LeavesOpen (loose : Prop) (opened : List Opening) (k : Nat) (φ : Phrase) (ts : List Token) :
    Prop :=
  ∃ found, unclosedFrom opened ts = some (found ++ opened) ∧ found.length = k ∧
    ∀ o ∈ found, o.OpensBlock loose φ

/-- What the tokens of a part leave open, those of the whole leave open, if what stands before the
part leaves open nothing. -/
theorem LeavesOpen.inside {ψ : Phrase} (h : LeavesOpen loose opened k φ ts)
    (htokens : unclosedFrom opened us = unclosedFrom opened ts)
    (hblocks : ∀ b, φ.HasBlock b → ψ.HasBlock b) : LeavesOpen loose opened k ψ us := by
  obtain ⟨found, hfound, hlength, hopens⟩ := h
  refine ⟨found, htokens.trans hfound, hlength, fun o ho => ?_⟩
  obtain ⟨b, j, hb, hspelled⟩ := hopens o ho
  exact ⟨b, j, hblocks b hb, hspelled⟩

theorem Spelled.leavesOpen_zero (h : Spelled loose m 0 φ ts) (opened : List Opening) :
    LeavesOpen loose opened 0 φ ts := by
  have hnone := h.unclosedFrom_append rfl opened []
  rw [List.append_nil] at hnone
  exact ⟨[], hnone, rfl, by simp⟩

/-- A block without its closing brace leaves open its own brace, and what its statements do. -/
theorem LeavesOpen.openBlock {ss : List Node}
    (h : LeavesOpen loose (⟨.sign .lbrace, ts⟩ :: opened) k (.statements ss) ts)
    (hspelled : Spelled loose 1 (k + 1) (.block (.block (.sign .lbrace) ss)) (.sign .lbrace :: ts)) :
    LeavesOpen loose opened (k + 1) (.block (.block (.sign .lbrace) ss)) (.sign .lbrace :: ts) := by
  obtain ⟨found, hfound, rfl, hopens⟩ := h
  refine ⟨found ++ [⟨.sign .lbrace, ts⟩], by simpa using hfound, by simp, fun o ho => ?_⟩
  rcases List.mem_append.1 ho with ho | ho
  · obtain ⟨b, j, ⟨s, hs, hb⟩, hb'⟩ := hopens o ho
    have hplace : (.statement, s) ∈ (Node.block (.sign .lbrace) ss).places :=
      List.mem_map_of_mem hs
    exact ⟨b, j, .inr (.of_mem_places _ hb hplace), hb'⟩
  · obtain rfl := List.mem_singleton.1 ho
    exact ⟨_, _, .inl rfl, hspelled⟩

/-- Tokens that spell a phrase leave open the braces of blocks, as many as are missing. -/
theorem Spelled.leavesOpen (h : Spelled loose m k φ ts) (opened : List Opening) :
    LeavesOpen loose opened k φ ts := by
  rcases Nat.eq_zero_or_pos k with rfl | hk
  · exact h.leavesOpen_zero opened
  -- what is left are the phrases that end with an open block
  induction h generalizing opened with
  | @unary _ _ _ right _ hkind _ _ ih =>
    refine (ih opened hk).inside (unclosedFrom_sign hkind.isPlain) fun b hb => ?_
    exact .of_mem_places .expression hb (by simp [Node.places])
  | @binary _ _ _ _ right _ _ hkind _ hleft _ _ ih =>
    refine (ih opened hk).inside ?_ fun b hb => ?_
    · rw [hleft.unclosedFrom_append rfl, unclosedFrom_sign hkind.isPlain]
    · exact .of_mem_places .expression hb (by simp [Node.places])
  | conditional hcondition _ _ ih =>
    refine (ih opened hk).inside ?_ fun b hb => ?_
    · rw [unclosedFrom_sign (by decide), unclosedFrom_lparen,
        hcondition.unclosedFrom_append rfl, unclosedFrom_rparen]
    · exact hb.hasBranch (by simp [Node.branches]) (by simp [Node.places])
  | alternative hcondition hconsequence _ _ _ ih =>
    refine (ih opened hk).inside ?_ fun b hb => ?_
    · rw [unclosedFrom_sign (by decide), unclosedFrom_lparen, hcondition.unclosedFrom_append rfl,
        unclosedFrom_rparen, hconsequence.unclosedFrom_append rfl, unclosedFrom_sign (by decide)]
    · exact hb.hasBranch (by simp [Node.branches]) (by simp [Node.places])
  | function names _ ih =>
    refine (ih opened hk).inside ?_ fun b hb => ?_
    · rw [unclosedFrom_sign (by decide), unclosedFrom_lparen, unclosedFrom_nameTokens,
        unclosedFrom_rparen]
    · exact hb.hasBranch (by simp [Node.branches]) (by simp [Node.places])
  | @openBlock k _ _ hloose hbody ih =>
    refine .openBlock ?_ (.openBlock hloose hbody)
    rcases Nat.eq_zero_or_pos k with rfl | hk
    · exact hbody.leavesOpen_zero _
    · exact ih _ hk
  | lastStatement _ ih => exact (ih opened hk).inside rfl fun b hb => ⟨_, List.mem_cons_self, hb⟩
  | moreStatements hs _ _ ih =>
    refine (ih opened hk).inside ?_ fun b hb => hb.cons
    rw [hs.unclosedFrom_append rfl, unclosedFrom_sign (by decide)]
  | adjacentStatements _ hs _ _ ih =>
    refine (ih opened hk).inside ?_ fun b hb => hb.cons
    rw [hs.unclosedFrom_append rfl]
  | @letStatement _ name value _ _ ih =>
    refine (ih opened hk).inside ?_ fun b hb => ?_
    · rw [unclosedFrom_sign (by decide), unclosedFrom_ident, unclosedFrom_sign (by decide)]
    · exact .of_mem_places .expression hb (by simp [Node.places])
  | @returnStatement _ value _ _ ih =>
    refine (ih opened hk).inside (unclosedFrom_sign (by decide)) fun b hb => ?_
    exact .of_mem_places .expression hb (by simp [Node.places])
  | @expressionStatement _ e _ _ _ ih =>
    refine (ih opened hk).inside rfl fun b hb => ?_
    exact .of_mem_places .expression hb (by simp [Node.places])
  | _ => exact absurd hk (Nat.lt_irrefl 0)

/-! ### Texts -/

/-- A text that begins with a slash, as commands do, is no program. -/
theorem head?_ne_slash {text : List Char} {ss : List Node}
    (h : Spelled loose 1 k (.statements ss) (scan text)) : text.head? ≠ some '/' := by
  intro hslash
  obtain ⟨rest, rfl⟩ := List.head?_eq_some_iff.1 hslash
  rw [scan_char (by decide)] at h
  rcases h.starts_statements with hnil | ⟨t, us, heq, hstarts⟩
  · cases hnil
  · obtain ⟨rfl, -⟩ := List.cons.inj heq
    exact absurd hstarts (by decide)

/-- **Brackets are properly nested.**  In a text that leaves no diagnostics every bracket is closed
by one of its kind, but for some braces, which stay open to the end of the text.  Each of these
begins a block of a conditional or a function that is not closed, and there are no other blocks that
are not closed.  The console counts exactly these braces, and submits the text if there is none. -/
theorem brackets_nest {text : List Char} (h : (parse text).diagnostics = []) :
    ∃ ss opened, (parse text).program = .program ss ∧ unclosed (scan text) = some opened ∧
      (∀ o ∈ opened, o.bracket = .sign .lbrace ∧ o.bracket :: o.behind <:+ scan text ∧
        ∃ b k, (parse text).program.HasBranch b ∧
          Spelled True 1 (k + 1) (.block b) (o.bracket :: o.behind)) ∧
      Spelled True 1 opened.length (.statements ss) (scan text) ∧
      openDepth text = opened.length ∧
      ∀ {β : Type} (editor : Editor β) (buffer : β), editor.text buffer = text →
        (editor.enter buffer = none ↔ opened = []) := by
  obtain ⟨ss, k, hprogram, hspelled⟩ := spelled_of_parse h
  obtain ⟨opened, hopened, rfl, hopens⟩ := hspelled.leavesOpen []
  rw [List.append_nil] at hopened
  have hdepth : openDepth text = opened.length := depthBehind_eq_length hopened
  refine ⟨ss, opened, hprogram, hopened, fun o ho => ?_, hspelled, hdepth, fun editor buffer hbuffer => ?_⟩
  · obtain ⟨b, j, ⟨s, hs, hb⟩, hblock⟩ := hopens o ho
    obtain ⟨us, hus⟩ := hblock.starts_block
    have hplace : (.statement, s) ∈ (Node.program ss).places := List.mem_map_of_mem hs
    have hsuffix := (suffix_of_unclosedFrom hopened o ho).resolve_left (by simp)
    exact ⟨(List.cons.inj hus).1, hsuffix, b, j, hprogram ▸ .of_mem_places _ hb hplace, hblock⟩
  · have hentry : entryDepth text = opened.length := by
      rw [entryDepth, if_neg (head?_ne_slash hspelled), hdepth]
    cases opened with
    | nil => simp [Editor.enter, hbuffer, hentry]
    | cons o opened => simp [Editor.enter, hbuffer, hentry]

/-- Two blocks are open at the end of this text, and a hash literal in them is closed. -/
theorem brackets_nest_open_blocks :
    (parse "fn() \x7b if (a) \x7b \x7btrue: a\x7d".toList).diagnostics = [] ∧
      ∃ ss opened, (parse "fn() \x7b if (a) \x7b \x7btrue: a\x7d".toList).program = .program ss ∧
        unclosed (scan "fn() \x7b if (a) \x7b \x7btrue: a\x7d".toList) = some opened ∧
        opened.length = 2 ∧ openDepth "fn() \x7b if (a) \x7b \x7btrue: a\x7d".toList = 2 := by
  have hparse : (parse "fn() \x7b if (a) \x7b \x7btrue: a\x7d".toList).diagnostics = [] := by
    decide +kernel
  obtain ⟨ss, opened, hprogram, hopened, -, -, hdepth, -⟩ := brackets_nest hparse
  have htwo : openDepth "fn() \x7b if (a) \x7b \x7btrue: a\x7d".toList = 2 := by
    decide +kernel
  exact ⟨hparse, ss, opened, hprogram, hopened, by rw [← hdepth, htwo], htwo⟩

end MonkeyLang
