import Mathlib.Data.List.Induction
import Mathlib.Data.Nat.Digits.Defs
import SungScore.Text

set_option autoImplicit false

/-!
# Decimal numbers

A number that is written is read back: `Decimal.nat?` undoes `Decimal.ofNat` and `Decimal.int?` undoes
`Decimal.ofInt`. What is written has digits and no other characters, but for the minus sign in front
of a negative number.

Digits denote a number in base ten: the last one counts the ones, the one before it the tens, and so on
(`Decimal.value`). Leading zeros add nothing. A sign may stand in front of them (`Decimal.Denotes`). The
readers of numbers go through the digits from left to right instead, and give just this number
(`Decimal.nat?_eq_some_iff`, `Decimal.int?_eq_some_iff`).
-/

namespace SungScore.Decimal

/-! ## Numbers read back -/

theorem ofNat_ne_nil (n : Nat) : ofNat n ≠ [] := Nat.toDigits_ne_nil

theorem ofInt_ne_nil (n : Int) : ofInt n ≠ [] := by
  cases n with
  | ofNat n => exact ofNat_ne_nil n
  | negSucc n => exact List.cons_ne_nil _ _

theorem isDigit_of_mem_ofNat {n : Nat} {c : Char} (h : c ∈ ofNat n) : c.isDigit = true :=
  Nat.isDigit_of_mem_toDigits (by decide) (by decide) h

/-- The characters of a number that is written. -/
theorem isDigit_or_eq_of_mem_ofInt {n : Int} {c : Char} (h : c ∈ ofInt n) :
    c.isDigit = true ∨ c = '-' := by
  cases n with
  | ofNat n => exact Or.inl (isDigit_of_mem_ofNat h)
  | negSucc n =>
      rcases List.mem_cons.mp h with rfl | hc
      · exact Or.inr rfl
      · exact Or.inl (isDigit_of_mem_ofNat hc)

/-- Only digits and the minus sign are written. -/
theorem not_mem_ofInt {c : Char} (hdigit : c.isDigit = false) (hsign : c ≠ '-') (n : Int) :
    c ∉ ofInt n := by
  intro h
  rcases isDigit_or_eq_of_mem_ofInt h with hc | hc
  · rw [hdigit] at hc
    cases hc
  · exact hsign hc

/-- A number that is written begins with a digit. -/
theorem ofNat_ne_cons {c : Char} (hc : c.isDigit = false) (n : Nat) (s : Text) :
    ofNat n ≠ c :: s := by
  intro h
  have hdigit := isDigit_of_mem_ofNat (n := n) (c := c) (by rw [h]; simp)
  rw [hc] at hdigit
  cases hdigit

theorem nat?_ofNat (n : Nat) : nat? (ofNat n) = some n := by
  have hall : (ofNat n).all Char.isDigit = true :=
    List.all_eq_true.mpr (fun _ hc => isDigit_of_mem_ofNat hc)
  have hnonempty : (ofNat n).isEmpty = false := by
    rw [List.isEmpty_eq_false_iff]
    exact ofNat_ne_nil n
  rw [nat?, hall, hnonempty]
  exact congrArg some Nat.ofDigitChars_ten_toDigits

theorem plusNat?_ofNat (n : Nat) : plusNat? (ofNat n) = some n := by
  unfold plusNat?
  split
  · rename_i s hs
    exact absurd hs (ofNat_ne_cons (by decide) n s)
  · exact nat?_ofNat n

theorem int?_ofInt (n : Int) : int? (ofInt n) = some n := by
  cases n with
  | negSucc n =>
      rw [ofInt, int?, nat?_ofNat]
      rfl
  | ofNat n =>
      rw [ofInt]
      unfold int?
      split
      · rename_i s hs
        exact absurd hs (ofNat_ne_cons (by decide) n s)
      · rw [plusNat?_ofNat]
        rfl

/-! ## Numbers and texts -/

/-- The number that a digit stands for. -/
def digit (c : Char) : Nat := c.toNat - '0'.toNat

/-- The number that digits denote. -/
def value (digits : Text) : Nat := Nat.ofDigits 10 (digits.reverse.map digit)

/-- The text has digits and nothing else, and at least one of them. -/
structure Digits (s : Text) : Prop where
  ne_nil : s ≠ []
  isDigit : ∀ c ∈ s, c.isDigit = true

/-- The integer that a text denotes: digits, which may have a sign in front. -/
inductive Denotes : Text → Int → Prop
  | plain {digits : Text} (h : Digits digits) : Denotes digits (value digits)
  | plus {digits : Text} (h : Digits digits) : Denotes ('+' :: digits) (value digits)
  | minus {digits : Text} (h : Digits digits) : Denotes ('-' :: digits) (-(value digits : Int))

/-! ## From left to right -/

/-- One more digit at the end moves the others up. -/
theorem value_concat (s : Text) (c : Char) : value (s ++ [c]) = 10 * value s + digit c := by
  rw [value, List.reverse_concat, List.map_cons, Nat.ofDigits_cons, Nat.add_comm]
  rfl

theorem ofDigitChars_eq_value (s : Text) : Nat.ofDigitChars 10 s 0 = value s := by
  induction s using List.reverseRecOn with
  | nil => rfl
  | append_singleton s c ih =>
      rw [value_concat, ← ih]
      show List.foldl _ 0 (s ++ [c]) = _
      rw [List.foldl_append]
      rfl

/-- **What is read of digits** is the number that they denote. -/
theorem nat?_eq_some_iff {s : Text} {n : Nat} : nat? s = some n ↔ Digits s ∧ value s = n := by
  unfold nat?
  rw [ofDigitChars_eq_value]
  constructor
  · intro h
    split at h
    · rename_i hs
      rw [Bool.and_eq_true, Bool.not_eq_true', List.isEmpty_eq_false_iff, List.all_eq_true] at hs
      exact ⟨⟨hs.1, hs.2⟩, Option.some.inj h⟩
    · cases h
  · rintro ⟨hs, rfl⟩
    apply if_pos
    rw [Bool.and_eq_true, Bool.not_eq_true', List.isEmpty_eq_false_iff, List.all_eq_true]
    exact ⟨hs.ne_nil, hs.isDigit⟩

/-- No sign is a digit. -/
theorem Digits.ne_cons {s digits : Text} {c : Char} (hs : Digits s) (hc : c.isDigit = false) :
    s ≠ c :: digits := by
  rintro rfl
  have hdigit := hs.isDigit c List.mem_cons_self
  rw [hc] at hdigit
  cases hdigit

theorem plusNat?_eq_some_iff {s : Text} {n : Nat} :
    plusNat? s = some n ↔
      (Digits s ∧ value s = n) ∨ ∃ digits, s = '+' :: digits ∧ Digits digits ∧ value digits = n := by
  unfold plusNat?
  split
  · rename_i digits
    rw [nat?_eq_some_iff]
    constructor
    · intro h
      exact Or.inr ⟨digits, rfl, h⟩
    · rintro (⟨hs, -⟩ | ⟨digits', hdigits, h⟩)
      · exact absurd rfl (hs.ne_cons (by decide))
      · obtain ⟨-, rfl⟩ := List.cons.inj hdigits
        exact h
  · rename_i hplus
    rw [nat?_eq_some_iff]
    constructor
    · exact Or.inl
    · rintro (h | ⟨digits, rfl, -⟩)
      · exact h
      · exact absurd rfl (hplus digits)

/-- Behind a minus sign, digits denote the number below zero. -/
theorem int?_minus (s : Text) : int? ('-' :: s) = (nat? s).map (fun n => -Int.ofNat n) := by
  rw [int?]
  cases nat? s <;> rfl

/-- **What is read as an integer** is the integer that the text denotes. -/
theorem int?_eq_some_iff {s : Text} {n : Int} : int? s = some n ↔ Denotes s n := by
  by_cases hminus : ∃ digits, s = '-' :: digits
  · obtain ⟨digits, rfl⟩ := hminus
    rw [int?_minus, Option.map_eq_some_iff]
    constructor
    · rintro ⟨m, hm, rfl⟩
      obtain ⟨h, rfl⟩ := nat?_eq_some_iff.mp hm
      exact .minus h
    · intro h
      cases h with
      | plain hs => exact absurd rfl (hs.ne_cons (by decide))
      | minus hs => exact ⟨_, nat?_eq_some_iff.mpr ⟨hs, rfl⟩, rfl⟩
  · rw [int?.eq_2 s (fun digits hs => hminus ⟨digits, hs⟩), Option.map_eq_some_iff]
    constructor
    · rintro ⟨m, hm, rfl⟩
      rcases plusNat?_eq_some_iff.mp hm with ⟨h, rfl⟩ | ⟨digits, rfl, h, rfl⟩
      · exact .plain h
      · exact .plus h
    · intro h
      cases h with
      | plain hs => exact ⟨_, plusNat?_eq_some_iff.mpr (Or.inl ⟨hs, rfl⟩), rfl⟩
      | plus hs => exact ⟨_, plusNat?_eq_some_iff.mpr (Or.inr ⟨_, rfl, hs, rfl⟩), rfl⟩
      | minus => exact absurd ⟨_, rfl⟩ hminus

end SungScore.Decimal
