import MonkeyLang.Syntax.Node

/-!
# Equality of syntax trees

Two trees are equal if all their fields are, the tokens included.  `Node.beq` compares them, and
`Node.beq_iff` says that it decides equality.
-/

namespace MonkeyLang

namespace Node

mutual

/-- Compares two trees field by field. -/
def beq : Node → Node → Bool
  | program s, program s' => beqList s s'
  | letStatement t n v, letStatement t' n' v' => t == t' && n == n' && v.beq v'
  | returnStatement t none, returnStatement t' none => t == t'
  | returnStatement t (some v), returnStatement t' (some v') => t == t' && v.beq v'
  | expressionStatement t e, expressionStatement t' e' => t == t' && e.beq e'
  | block t s, block t' s' => t == t' && beqList s s'
  | identifier i, identifier i' => i == i'
  | integer t v, integer t' v' => t == t' && v == v'
  | string t v, string t' v' => t == t' && v == v'
  | boolean t v, boolean t' v' => t == t' && v == v'
  | unary t o r, unary t' o' r' => t == t' && o == o' && r.beq r'
  | binary t l o r, binary t' l' o' r' => t == t' && l.beq l' && o == o' && r.beq r'
  | conditional t c b none, conditional t' c' b' none => t == t' && c.beq c' && b.beq b'
  | conditional t c b (some a), conditional t' c' b' (some a') =>
    t == t' && c.beq c' && b.beq b' && a.beq a'
  | function t p b, function t' p' b' => t == t' && p == p' && b.beq b'
  | call t f a, call t' f' a' => t == t' && f.beq f' && beqList a a'
  | array t e, array t' e' => t == t' && beqList e e'
  | index t l i, index t' l' i' => t == t' && l.beq l' && i.beq i'
  | hash t p, hash t' p' => t == t' && beqPairs p p'
  | foreign k s, foreign k' s' => k == k' && s == s'
  | _, _ => false

/-- Compares two lists of trees. -/
def beqList : List Node → List Node → Bool
  | [], [] => true
  | a :: as, b :: bs => a.beq b && beqList as bs
  | _, _ => false

/-- Compares two lists of pairs of trees. -/
def beqPairs : List (Node × Node) → List (Node × Node) → Bool
  | [], [] => true
  | (a, c) :: as, (b, d) :: bs => a.beq b && c.beq d && beqPairs as bs
  | _, _ => false

end

mutual

theorem beq_iff : (a b : Node) → (a.beq b = true ↔ a = b)
  | program s, b => by cases b <;> simp [beq, beqList_iff s]
  | letStatement t n v, b => by cases b <;> simp [beq, beq_iff v, and_assoc]
  | returnStatement t none, b => by
    cases b with
    | returnStatement t' v' => cases v' <;> simp [beq]
    | _ => simp [beq]
  | returnStatement t (some v), b => by
    cases b with
    | returnStatement t' v' => cases v' <;> simp [beq, beq_iff v]
    | _ => simp [beq]
  | expressionStatement t e, b => by cases b <;> simp [beq, beq_iff e]
  | block t s, b => by cases b <;> simp [beq, beqList_iff s]
  | identifier i, b => by cases b <;> simp [beq]
  | integer t v, b => by cases b <;> simp [beq]
  | string t v, b => by cases b <;> simp [beq]
  | boolean t v, b => by cases b <;> simp [beq]
  | unary t o r, b => by cases b <;> simp [beq, beq_iff r, and_assoc]
  | binary t l o r, b => by cases b <;> simp [beq, beq_iff l, beq_iff r, and_assoc]
  | conditional t c s none, b => by
    cases b with
    | conditional t' c' s' a' => cases a' <;> simp [beq, beq_iff c, beq_iff s, and_assoc]
    | _ => simp [beq]
  | conditional t c s (some a), b => by
    cases b with
    | conditional t' c' s' a' =>
      cases a' <;> simp [beq, beq_iff c, beq_iff s, beq_iff a, and_assoc]
    | _ => simp [beq]
  | function t p s, b => by cases b <;> simp [beq, beq_iff s, and_assoc]
  | call t f a, b => by cases b <;> simp [beq, beq_iff f, beqList_iff a, and_assoc]
  | array t e, b => by cases b <;> simp [beq, beqList_iff e]
  | index t l i, b => by cases b <;> simp [beq, beq_iff l, beq_iff i, and_assoc]
  | hash t p, b => by cases b <;> simp [beq, beqPairs_iff p]
  | foreign k s, b => by cases b <;> simp [beq]

theorem beqList_iff : (as bs : List Node) → (beqList as bs = true ↔ as = bs)
  | [], bs => by cases bs <;> simp [beqList]
  | a :: as, bs => by cases bs <;> simp [beqList, beq_iff a, beqList_iff as]

theorem beqPairs_iff : (as bs : List (Node × Node)) → (beqPairs as bs = true ↔ as = bs)
  | [], bs => by cases bs <;> simp [beqPairs]
  | (a, c) :: as, bs => by
    cases bs with
    | nil => simp [beqPairs]
    | cons q bs =>
      obtain ⟨b, d⟩ := q
      simp [beqPairs, beq_iff a, beq_iff c, beqPairs_iff as]

end

end Node

instance : DecidableEq Node := fun a b => decidable_of_iff _ (Node.beq_iff a b)

end MonkeyLang
