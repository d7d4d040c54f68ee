import Mathlib

/-!
# Reading decimal numerals

A signed decimal numeral at the start of a text in ASCII, as the number readers of the C library
read it: behind white space an optional sign, then digits up to the first byte that is none. The
rest of the text is ignored, and a text without digits reads as zero.

## Main definitions

* `Numerals.value`: the number written by a row of digits.
* `Numerals.readInt`: the number at the start of a text.

## Main results

* `Numerals.value_digits`: the digits of a number are read back.
* `Numerals.readInt_minus`, `Numerals.readInt_plain`: a written number is read back, whatever
  follows it.
-/

namespace Numerals

/-- `isdigit`. -/
def isDigit (b : UInt8) : Bool := 48 ≤ b && b ≤ 57

/-- `isspace`. -/
def isSpace (b : UInt8) : Bool := b = 32 || (9 ≤ b && b ≤ 13)

/-- The number that a row of digits writes. -/
def value (s : List UInt8) : ℕ := s.foldl (fun n b => 10 * n + (b.toNat - 48)) 0

/-- The digits that write a number, for a positive one. -/
def digitBytes (n : ℕ) : List UInt8 := (Nat.digits 10 n).reverse.map fun d => UInt8.ofNat (48 + d)

/-- The number at the start of a text. -/
def readInt (s : List UInt8) : ℤ :=
  match s.dropWhile isSpace with
  | 45 :: rest => -(value (rest.takeWhile isDigit) : ℤ)
  | 43 :: rest => value (rest.takeWhile isDigit)
  | rest => value (rest.takeWhile isDigit)

/-! ### Digits -/

theorem toNat_digit {d : ℕ} (hd : d < 10) : (UInt8.ofNat (48 + d)).toNat = 48 + d := by
  interval_cases d <;> rfl

theorem isDigit_digit {d : ℕ} (hd : d < 10) : isDigit (UInt8.ofNat (48 + d)) = true := by
  interval_cases d <;> rfl

theorem value_concat (s : List UInt8) (b : UInt8) :
    value (s ++ [b]) = 10 * value s + (b.toNat - 48) := by
  rw [value, List.foldl_append]
  rfl

/-- Digits, given from the last one on, write the number that they are the digits of. -/
theorem value_reverse_map {l : List ℕ} (hl : ∀ d ∈ l, d < 10) :
    value (l.reverse.map fun d => UInt8.ofNat (48 + d)) = Nat.ofDigits 10 l := by
  induction l with
  | nil => rfl
  | cons d l ih =>
    obtain ⟨hd, hl⟩ := List.forall_mem_cons.mp hl
    rw [List.reverse_cons, List.map_append, List.map_singleton, value_concat, ih hl,
      toNat_digit hd, Nat.ofDigits_cons]
    omega

/-- **The digits of a number are read back.** -/
theorem value_digits (n : ℕ) : value (digitBytes n) = n := by
  rw [digitBytes, value_reverse_map fun d hd => Nat.digits_lt_base (by norm_num) hd]
  exact Nat.ofDigits_digits 10 n

/-! ### Numbers in a text -/

/-- The text does not go on with a digit. -/
def EndsNumeral (rest : List UInt8) : Prop := ∀ b ∈ rest.head?, isDigit b = false

theorem endsNumeral_nil : EndsNumeral [] := by
  intro b hb
  cases hb

theorem takeWhile_isDigit_append {s rest : List UInt8} (hs : ∀ b ∈ s, isDigit b = true)
    (hrest : EndsNumeral rest) : (s ++ rest).takeWhile isDigit = s := by
  rw [List.takeWhile_append_of_pos hs]
  cases rest with
  | nil => simp
  | cons b rest =>
    have hb : isDigit b = false := hrest b (by simp)
    rw [List.takeWhile_cons_of_neg (by simp [hb]), List.append_nil]

/-- A digit is neither white space nor a sign. -/
theorem not_isSpace_of_isDigit {b : UInt8} (h : isDigit b = true) :
    isSpace b = false ∧ b ≠ 45 ∧ b ≠ 43 := by
  simp only [isDigit, Bool.and_eq_true, decide_eq_true_eq, UInt8.le_iff_toNat_le] at h
  simp only [isSpace, Bool.or_eq_false_iff, Bool.and_eq_false_iff, decide_eq_false_iff_not,
    UInt8.le_iff_toNat_le, ← UInt8.toNat_inj, ne_eq]
  simp only [UInt8.reduceToNat] at h ⊢
  omega

/-- A number without a sign is read back. -/
theorem readInt_plain {s rest : List UInt8} (hs : ∀ b ∈ s, isDigit b = true) (hne : s ≠ [])
    (hrest : EndsNumeral rest) : readInt (s ++ rest) = value s := by
  cases s with
  | nil => exact absurd rfl hne
  | cons b s =>
    obtain ⟨hspace, hminus, hplus⟩ := not_isSpace_of_isDigit (hs b List.mem_cons_self)
    have hdrop : (b :: s ++ rest).dropWhile isSpace = b :: (s ++ rest) :=
      List.dropWhile_cons_of_neg (by simp [hspace])
    rw [readInt, hdrop]
    split
    case h_1 heq => exact absurd (List.cons.inj heq).1 hminus
    case h_2 heq => exact absurd (List.cons.inj heq).1 hplus
    case h_3 => rw [← List.cons_append, takeWhile_isDigit_append hs hrest]

/-- A number with a minus sign is read back. -/
theorem readInt_minus {s rest : List UInt8} (hs : ∀ b ∈ s, isDigit b = true)
    (hrest : EndsNumeral rest) : readInt (45 :: s ++ rest) = -(value s : ℤ) := by
  have hdrop : (45 :: s ++ rest).dropWhile isSpace = 45 :: (s ++ rest) :=
    List.dropWhile_cons_of_neg (by decide)
  rw [readInt, hdrop]
  show -(value ((s ++ rest).takeWhile isDigit) : ℤ) = _
  rw [takeWhile_isDigit_append hs hrest]

end Numerals
