import Reckon.Number.Format

/-!
# Decimals

A decimal is a natural number of digits scaled by a power of ten. It is written without an
exponent: `spelled` gives the digits before and after the point, and read back they make a decimal
of the same value (`ratio_ofDigits_spelled`). `Format.ofDecimal` rounds a decimal to a code of a
binary format.
-/

namespace Reckon.Number

-- Powers of naturals are the ones of core, whatever other powers are in scope.
attribute [local instance (high)] instPowNat

/-- The number `digits · 10 ^ exponent`. -/
structure Decimal where
  digits : Nat
  exponent : Int
deriving DecidableEq, Repr

namespace Decimal

/-- The value as a quotient of naturals. -/
def ratio (d : Decimal) : Nat × Nat :=
  match d.exponent with
  | .ofNat k => (d.digits * 10 ^ k, 1)
  | .negSucc k => (d.digits, 10 ^ (k + 1))

/-- The decimal written with `whole` before the point and `part` after it. -/
def ofDigits (whole part : List Char) : Decimal :=
  ⟨Nat.ofDigitChars 10 (whole ++ part) 0, -part.length⟩

/-- The digits before and after the point, without an exponent. There is always one before it, and
there are some after it only if the exponent is negative. -/
def spelled (d : Decimal) : List Char × List Char :=
  let digits := Nat.toDigits 10 d.digits
  match d.exponent with
  | .ofNat k => (digits ++ List.replicate k '0', [])
  | .negSucc k =>
    let padded := List.replicate (k + 2 - digits.length) '0' ++ digits
    padded.splitAt (padded.length - (k + 1))

/-- Positional text: a point stands only before digits. -/
def chars (d : Decimal) : List Char :=
  let (whole, part) := d.spelled
  if part.isEmpty then whole else whole ++ '.' :: part

/-! ## What is spelled is the decimal itself -/

/-- Read back, the digits make a decimal of the same value. -/
theorem ratio_ofDigits_spelled (d : Decimal) :
    (ofDigits d.spelled.1 d.spelled.2).ratio = d.ratio := by
  obtain ⟨n, e⟩ := d
  cases e with
  | ofNat k =>
    simp [spelled, ofDigits, ratio, Nat.ofDigitChars_append, Nat.ofDigitChars_replicate_zero,
      Nat.mul_comm]
  | negSucc k =>
    generalize hp : List.replicate (k + 2 - (Nat.toDigits 10 n).length) '0' ++ Nat.toDigits 10 n
      = padded
    have hlen : k + 1 < padded.length := by
      rw [← hp]; simp; omega
    have hval : Nat.ofDigitChars 10 padded 0 = n := by
      rw [← hp]; simp [Nat.ofDigitChars_append, Nat.ofDigitChars_replicate_zero]
    have hpart : padded.length - (padded.length - (k + 1)) = k + 1 := by omega
    simp only [spelled, hp, List.splitAt_eq, ofDigits, List.take_append_drop, List.length_drop,
      hpart, hval]
    rfl

/-- Only digits are spelled. -/
theorem isDigit_of_mem_spelled {d : Decimal} {c : Char}
    (h : c ∈ d.spelled.1 ++ d.spelled.2) : c.isDigit := by
  obtain ⟨n, e⟩ := d
  have hd {c : Char} (h : c ∈ Nat.toDigits 10 n) : c.isDigit :=
    Nat.isDigit_of_mem_toDigits (by decide) (by decide) h
  have hz {c : Char} {k : Nat} (h : c ∈ List.replicate k '0') : c.isDigit := by
    rw [List.eq_of_mem_replicate h]; rfl
  cases e with
  | ofNat k =>
    simp only [spelled, List.append_nil, List.mem_append] at h
    exact h.elim hd hz
  | negSucc k =>
    simp only [spelled, List.splitAt_eq, List.take_append_drop, List.mem_append] at h
    exact h.elim hz hd

theorem spelled_fst_ne_nil (d : Decimal) : d.spelled.1 ≠ [] := by
  obtain ⟨n, e⟩ := d
  cases e with
  | ofNat k => simp [spelled, Nat.toDigits_ne_nil]
  | negSucc k =>
    refine List.ne_nil_of_length_pos ?_
    simp [spelled]
    omega

end Decimal

namespace Format

/-- The code nearest to a decimal. -/
def ofDecimal (f : Format) (d : Decimal) : Nat :=
  f.nearest (d.ratio.1 * 2 ^ f.places) d.ratio.2

end Format

end Reckon.Number
