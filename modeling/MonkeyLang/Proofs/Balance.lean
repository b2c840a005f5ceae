import MonkeyLang.Console.Entry
import MonkeyLang.Proofs.Spelling

/-!
# Brackets and ends of spellings

Two facts about the tokens that spell a phrase, by the number `k` of closing braces that are missing
at their end:

* `Spelled.depth`: as many brackets are open behind them as before them, and `k` more;
* `Spelled.endsOpen`: if none is missing, then an expression, a block or a statement does not end
  with a semicolon.
-/

namespace MonkeyLang

open Console

variable {loose : Prop} {m k : Nat} {φ : Phrase} {ts : List Token}

/-- The number of open brackets behind tokens, given the number before them. -/
def depthBehind (depth : Nat) (ts : List Token) : Nat :=
  ts.foldl depthAfter depth

@[simp] theorem depthBehind_nil (depth : Nat) : depthBehind depth [] = depth := rfl

@[simp] theorem depthBehind_cons (depth : Nat) (t : Token) (ts : List Token) :
    depthBehind depth (t :: ts) = depthBehind (depthAfter depth t) ts := rfl

@[simp] theorem depthBehind_append (depth : Nat) (ts us : List Token) :
    depthBehind depth (ts ++ us) = depthBehind (depthBehind depth ts) us :=
  List.foldl_append

theorem depthAfter_of_isPrefix {kind : TokenKind} (h : kind.IsPrefix) (depth : Nat) :
    depthAfter depth (.sign kind) = depth := by
  rcases h with rfl | rfl <;> rfl

theorem depthAfter_of_isInfix {kind : TokenKind} (h : kind.IsInfix) (depth : Nat) :
    depthAfter depth (.sign kind) = depth := by
  simp only [TokenKind.IsInfix, List.mem_cons, List.not_mem_nil, or_false] at h
  rcases h with rfl | rfl | rfl | rfl | rfl | rfl | rfl | rfl <;> rfl

theorem depthBehind_nameTokens (depth : Nat) (names : List String) :
    depthBehind depth (nameTokens names) = depth := by
  have hothers : ∀ others : List String, depthBehind depth
      (others.flatMap fun name => [.sign .comma, ⟨.ident, name⟩]) = depth := by
    intro others
    induction others with
    | nil => rfl
    | cons name others ih => exact ih
  cases names with
  | nil => rfl
  | cons name names => exact hothers names

/-- Behind a phrase as many brackets are open as before it, and those braces that are missing. -/
theorem Spelled.depth (h : Spelled loose m k φ ts) (depth : Nat) :
    depthBehind depth ts = depth + k := by
  induction h generalizing depth with
  | identifier | integer | string | noItems | noPairs | noStatements | bareReturn => rfl
  | boolean value => cases value <;> rfl
  | grouped _ ih | array _ ih | hash _ ih | block _ ih => simp [ih, depthAfter]
  | unary hkind _ _ ih => simp [ih, depthAfter_of_isPrefix hkind]
  | binary hkind _ _ _ ihleft ihright =>
    simp [ihleft, ihright, depthAfter_of_isInfix hkind]
  | conditional _ _ ihcondition ihconsequence => simp [ihcondition, ihconsequence, depthAfter]
  | alternative _ _ _ ihcondition ihconsequence ihalternative =>
    simp [ihcondition, ihconsequence, ihalternative, depthAfter]
  | function names _ ih => simp [ih, depthBehind_nameTokens, depthAfter]
  | call _ _ ihcallee iharguments => simp [ihcallee, iharguments, depthAfter]
  | index _ _ ihtarget ihposition => simp [ihtarget, ihposition, depthAfter]
  | lastItem _ ih | lastStatement _ ih | expressionStatement _ ih => exact ih depth
  | moreItems _ _ ihe ihes => simp [ihe, ihes, depthAfter]
  | lastPair _ _ ihkey ihvalue => simp [ihkey, ihvalue, depthAfter]
  | morePairs _ _ _ ihkey ihvalue ihpairs => simp [ihkey, ihvalue, ihpairs, depthAfter]
  | openBlock _ _ ih => simp +arith [ih, depthAfter]
  | moreStatements _ _ ihs ihss => simp [ihs, ihss, depthAfter]
  | adjacentStatements _ _ _ ihs ihss => simp [ihs, ihss]
  | letStatement name _ ih => simp [ih, depthAfter]
  | returnStatement _ ih => simp [ih, depthAfter]

/-! ### Last tokens -/

/-- There is a last token, and it is no semicolon. -/
def EndsOpen (ts : List Token) : Prop :=
  ∃ us t, ts = us ++ [t] ∧ t.kind ≠ .semicolon

theorem endsOpen_singleton {t : Token} (h : t.kind ≠ .semicolon) : EndsOpen [t] :=
  ⟨[], t, rfl, h⟩

theorem EndsOpen.append {us : List Token} (h : EndsOpen us) (ts : List Token) :
    EndsOpen (ts ++ us) := by
  obtain ⟨vs, t, rfl, ht⟩ := h
  exact ⟨ts ++ vs, t, (List.append_assoc ..).symm, ht⟩

theorem EndsOpen.cons {us : List Token} (h : EndsOpen us) (t : Token) : EndsOpen (t :: us) :=
  h.append [t]

theorem EndsOpen.getLast?_ne (h : EndsOpen ts) : ts.getLast? ≠ some (.sign .semicolon) := by
  obtain ⟨us, t, rfl, ht⟩ := h
  intro hlast
  obtain rfl : t = .sign .semicolon := by simpa using hlast
  exact ht rfl

/-- The phrases that are one thing, and no list. -/
def Phrase.IsSingle : Phrase → Prop
  | .expression _ | .block _ | .statement _ => True
  | .statements _ | .items _ | .pairs _ => False

/-- If no brace is missing at its end, a phrase does not end with a semicolon. -/
theorem Spelled.endsOpen (h : Spelled loose m k φ ts) (hφ : φ.IsSingle) (hk : k = 0) :
    EndsOpen ts := by
  have hclosing {kind : TokenKind} (hkind : kind ≠ .semicolon) (us : List Token) :
      EndsOpen (us ++ [.sign kind]) := (endsOpen_singleton hkind).append us
  induction h with
  | identifier | integer | string | bareReturn => exact endsOpen_singleton (by simp)
  | boolean value => exact endsOpen_singleton (by cases value <;> decide)
  | grouped | array | hash | block => exact (hclosing (by decide) _).cons _
  | call | index => exact ((hclosing (by decide) _).cons _).append _
  | unary _ _ _ ih => exact (ih trivial hk).cons _
  | binary _ _ _ _ _ ihright => exact ((ihright trivial hk).cons _).append _
  | conditional _ _ _ ih => exact ((((ih trivial hk).cons _).append _).cons _).cons _
  | alternative _ _ _ _ _ ih =>
    exact ((((((ih trivial hk).cons _).append _).cons _).append _).cons _).cons _
  | function names _ ih => exact ((((ih trivial hk).cons _).append _).cons _).cons _
  | openBlock => omega
  | letStatement name _ ih => exact (((ih trivial hk).cons _).cons _).cons _
  | returnStatement _ ih => exact (ih trivial hk).cons _
  | expressionStatement _ ih => exact ih trivial hk
  | noItems | lastItem | moreItems | noPairs | lastPair | morePairs | noStatements | lastStatement
  | moreStatements | adjacentStatements => exact hφ.elim

end MonkeyLang
