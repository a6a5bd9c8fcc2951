import Mathlib

/-!
# Decimal text and `strtoumax`

A number goes through text: printed as a signed decimal, read back as an unsigned one.  Reading
accepts a minus sign and negates the magnitude modulo `2 ^ 64`, so a negative number comes back as
its 64-bit two's complement (`strtoumax_printSigned`).
-/

namespace ZRay

/-- A signed decimal. -/
def printSigned (n : Int) : List Char :=
  if n < 0 then '-' :: Nat.toDigits 10 n.natAbs else Nat.toDigits 10 n.natAbs

/-- `isspace` of the C locale. -/
def isspace (c : Char) : Bool := c = ' ' || (9 ≤ c.toNat && c.toNat ≤ 13)

/-- `UINTMAX_MAX`. -/
def uintmaxMax : Nat := 2 ^ 64 - 1

/-- The number the leading digits stand for. -/
def leadingNumber (s : List Char) : Nat := Nat.ofDigitChars 10 (s.takeWhile Char.isDigit) 0

/-- A magnitude that does not fit is `UINTMAX_MAX`, whatever its sign. -/
def saturate (magnitude value : Nat) : Nat := if uintmaxMax < magnitude then uintmaxMax else value

/-- `strtoumax(s, nullptr, 10)`: spaces, a sign, digits; the rest is ignored, and no digits are 0. -/
def strtoumax (s : List Char) : Nat :=
  match s.dropWhile isspace with
  | [] => 0
  | c :: s =>
    if c = '-' then saturate (leadingNumber s) ((2 ^ 64 - leadingNumber s) % 2 ^ 64)
    else if c = '+' then saturate (leadingNumber s) (leadingNumber s)
    else saturate (leadingNumber (c :: s)) (leadingNumber (c :: s))

/-- `atoi`: spaces, a sign, digits; the rest is ignored, and no digits are 0.  A number outside `int` is undefined in
the source. -/
def atoi (s : List Char) : Int :=
  match s.dropWhile isspace with
  | [] => 0
  | c :: s =>
    if c = '-' then -(leadingNumber s : Int)
    else if c = '+' then leadingNumber s
    else leadingNumber (c :: s)

theorem leadingNumber_toDigits (n : Nat) : leadingNumber (Nat.toDigits 10 n) = n := by
  have hdigits : (Nat.toDigits 10 n).takeWhile Char.isDigit = Nat.toDigits 10 n :=
    List.takeWhile_eq_self_iff.mpr fun c hc => Nat.isDigit_of_mem_toDigits (by decide) (by decide) hc
  unfold leadingNumber
  rw [hdigits, Nat.ofDigitChars_ten_toDigits]

theorem saturate_of_lt {magnitude : Nat} (h : magnitude < 2 ^ 64) (value : Nat) :
    saturate magnitude value = value := by
  have hmax : ¬ uintmaxMax < magnitude := by
    unfold uintmaxMax
    omega
  rw [saturate, if_neg hmax]

/-- A digit is neither a space nor a sign. -/
theorem isDigit_ne {c : Char} (h : c.isDigit = true) : isspace c = false ∧ c ≠ '-' ∧ c ≠ '+' := by
  have hrange : 48 ≤ c.toNat ∧ c.toNat ≤ 57 := by
    simp only [Char.isDigit, Bool.and_eq_true, decide_eq_true_eq, ge_iff_le, UInt32.le_iff_toNat_le] at h
    exact h
  refine ⟨?_, ?_, ?_⟩
  · have hspace : c ≠ ' ' := by
      rintro rfl
      simp at hrange
    simp only [isspace, hspace, decide_false, Bool.false_or, Bool.and_eq_false_iff, decide_eq_false_iff_not]
    omega
  · rintro rfl
    simp at hrange
  · rintro rfl
    simp at hrange

theorem strtoumax_toDigits_eq (n : Nat) : strtoumax (Nat.toDigits 10 n) = saturate n n := by
  obtain ⟨c, s, hs⟩ := List.exists_cons_of_ne_nil (Nat.toDigits_ne_nil (n := n) (b := 10))
  have hc : c.isDigit = true := Nat.isDigit_of_mem_toDigits (b := 10) (n := n) (by decide) (by decide) (by simp [hs])
  obtain ⟨hspace, hminus, hplus⟩ := isDigit_ne hc
  have hlead := leadingNumber_toDigits n
  rw [hs] at hlead ⊢
  unfold strtoumax
  rw [List.dropWhile_cons_of_neg (by simp [hspace])]
  simp only [hminus, hplus, if_false, hlead]

theorem strtoumax_toDigits {n : Nat} (h : n < 2 ^ 64) : strtoumax (Nat.toDigits 10 n) = n := by
  rw [strtoumax_toDigits_eq]
  exact saturate_of_lt h n

theorem strtoumax_toDigits_of_le {n : Nat} (h : 2 ^ 64 ≤ n) : strtoumax (Nat.toDigits 10 n) = uintmaxMax := by
  have hmax : uintmaxMax < n := by
    unfold uintmaxMax
    omega
  rw [strtoumax_toDigits_eq, saturate, if_pos hmax]

theorem atoi_toDigits (n : Nat) : atoi (Nat.toDigits 10 n) = n := by
  obtain ⟨c, s, hs⟩ := List.exists_cons_of_ne_nil (Nat.toDigits_ne_nil (n := n) (b := 10))
  have hc : c.isDigit = true := Nat.isDigit_of_mem_toDigits (b := 10) (n := n) (by decide) (by decide) (by simp [hs])
  obtain ⟨hspace, hminus, hplus⟩ := isDigit_ne hc
  have hlead := leadingNumber_toDigits n
  rw [hs] at hlead ⊢
  unfold atoi
  rw [List.dropWhile_cons_of_neg (by simp [hspace])]
  simp only [hminus, hplus, if_false, hlead]

theorem strtoumax_neg_toDigits {n : Nat} (h : n < 2 ^ 64) :
    strtoumax ('-' :: Nat.toDigits 10 n) = (2 ^ 64 - n) % 2 ^ 64 := by
  unfold strtoumax
  rw [List.dropWhile_cons_of_neg (by decide)]
  simp only [if_true, leadingNumber_toDigits]
  exact saturate_of_lt h _

/-- A signed decimal whose magnitude fits comes back modulo `2 ^ 64`. -/
theorem strtoumax_printSigned {n : Int} (h : n.natAbs < 2 ^ 64) : (strtoumax (printSigned n) : Int) = n % 2 ^ 64 := by
  unfold printSigned
  split
  · rw [strtoumax_neg_toDigits h]
    omega
  · rw [strtoumax_toDigits h]
    omega

theorem strtoumax_lt (s : List Char) : strtoumax s < 2 ^ 64 := by
  have hsat : ∀ magnitude value, value < 2 ^ 64 → saturate magnitude value < 2 ^ 64 := by
    intro magnitude value hvalue
    unfold saturate uintmaxMax
    split <;> omega
  have hself : ∀ magnitude, saturate magnitude magnitude < 2 ^ 64 := by
    intro magnitude
    unfold saturate uintmaxMax
    split <;> omega
  unfold strtoumax
  split
  · decide
  · split
    · exact hsat _ _ (Nat.mod_lt _ (by decide))
    · split
      · exact hself _
      · exact hself _

end ZRay
