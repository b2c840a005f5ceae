import Mathlib.Data.List.Basic
import Mathlib.Data.Nat.Digits.Defs
import MonkeyLang.Proofs.Lexeme
import MonkeyLang.Text.Numeral

/-!
# The values of integer literals

The text of an integer literal is a run of ASCII digits, and `decimalValue` is the number that it
stands for.  `readInteger`, which knows of signs, blanks, underscores and the digits of other
scripts, makes no more of it than that (`readInteger_of_isNumeral`), unless there are too many
digits.
-/

namespace MonkeyLang.Text

/-- The number that a run of ASCII digits stands for in the decimal system. -/
def decimalValue (text : String) : Nat :=
  Nat.ofDigits 10 (text.toList.reverse.map fun c => c.toNat - '0'.toNat)

theorem toNat_of_isDigit {c : Char} (h : isDigit c) : 48 ≤ c.toNat ∧ c.toNat ≤ 57 := by
  simp only [isDigit, Bool.and_eq_true, decide_eq_true_eq] at h
  exact h

theorem digit?_of_isDigit {c : Char} (h : isDigit c) : digit? c = some (c.toNat - '0'.toNat) := by
  obtain ⟨hle, hge⟩ := toNat_of_isDigit h
  have hfirst : (zeroDigits.find? fun first => first ≤ c.toNat && c.toNat < first + 10) =
      some 0x30 := by
    refine List.find?_cons_of_pos ?_
    simp only [Bool.and_eq_true, decide_eq_true_eq]
    omega
  rw [digit?, hfirst]
  rfl

theorem isPadding_of_isDigit {c : Char} (h : isDigit c) : isPadding c = false := by
  obtain ⟨hle, hge⟩ := toNat_of_isDigit h
  have hblank : isBlank c = false := by
    rw [isBlank, List.contains_eq_mem, decide_eq_false_iff_not]
    intro hmem
    have hfar : ∀ n ∈ blanks, n < 48 ∨ 57 < n := by decide
    have := hfar _ hmem
    omega
  rw [isPadding, hblank, Bool.false_and]

theorem ne_of_isDigit {c d : Char} (h : isDigit c) (hd : isDigit d = false) : c ≠ d := by
  rintro rfl
  rw [h] at hd
  cases hd

theorem dropWhile_eq_self {p : Char → Bool} {text : List Char} (h : ∀ c ∈ text, p c = false) :
    text.dropWhile p = text := by
  cases text with
  | nil => rfl
  | cons c text => rw [List.dropWhile_cons_of_neg (by simp [h c List.mem_cons_self])]

theorem trimWhere_eq_self {p : Char → Bool} {text : List Char} (h : ∀ c ∈ text, p c = false) :
    trimWhere p text = text := by
  rw [trimWhere, dropWhile_eq_self h, dropWhile_eq_self (by simpa using h), List.reverse_reverse]

theorem wellGrouped_of_digits {text : List Char} (hne : text ≠ [])
    (h : ∀ c ∈ text, isDigit c) : wellGrouped text = true := by
  induction text with
  | nil => exact absurd rfl hne
  | cons c text ih =>
    have hc := ne_of_isDigit (h c List.mem_cons_self) (d := '_') rfl
    cases text with
    | nil => simp [wellGrouped, hc]
    | cons d rest =>
      have hd := ne_of_isDigit (h d (by simp)) (d := '_') rfl
      have hrest := ih (List.cons_ne_nil d rest) fun x hx => h x (List.mem_cons_of_mem c hx)
      simp [wellGrouped, hc, hd, hrest]

theorem filterMap_digit? {text : List Char} (h : ∀ c ∈ text, isDigit c) :
    text.filterMap digit? = text.map fun c => c.toNat - '0'.toNat :=
  List.filterMap_eq_map_iff_forall_eq_some.2 fun c hc => digit?_of_isDigit (h c hc)

/-- The digits from the most significant one on, and the other way round. -/
theorem digitsValue_eq_ofDigits (digits : List Nat) :
    digitsValue digits = Nat.ofDigits 10 digits.reverse := by
  rw [digitsValue, Nat.ofDigits_eq_foldr, List.foldr_reverse]
  exact congrArg (fun f => digits.foldl f 0) (funext₂ fun value digit => by simp [Nat.add_comm])

theorem readNatural_of_digits {text : List Char} (hne : text ≠ []) (h : ∀ c ∈ text, isDigit c) :
    readNatural text =
      if maxDigits < text.length then .error (.tooManyDigits text.length)
      else .ok (decimalValue (String.ofList text)) := by
  have hall : text.takeWhile (fun c => c == '_' || (digit? c).isSome) = text :=
    List.takeWhile_eq_self_iff.2 fun c hc => by simp [digit?_of_isDigit (h c hc)]
  simp [readNatural, hall, wellGrouped_of_digits hne h, filterMap_digit? h,
    digitsValue_eq_ofDigits, decimalValue]

/-- A run of ASCII digits is read as the number that it stands for, unless it is too long. -/
theorem readInteger_of_isNumeral {text : String} (h : IsNumeral text) :
    readInteger text.toList =
      if maxDigits < text.toList.length then .error (.tooManyDigits text.toList.length)
      else .ok (decimalValue text) := by
  obtain ⟨hne, hdigits⟩ := h
  rw [readInteger, trimWhere_eq_self fun c hc => isPadding_of_isDigit (hdigits c hc)]
  have hread := readNatural_of_digits hne hdigits
  rw [String.ofList_toList] at hread
  split
  · next body hbody =>
    exact absurd rfl (ne_of_isDigit (hdigits '-' (by simp [hbody])) rfl)
  · next body hbody =>
    exact absurd rfl (ne_of_isDigit (hdigits '+' (by simp [hbody])) rfl)
  · rw [hread]
    split <;> rfl

end MonkeyLang.Text
