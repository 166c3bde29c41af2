/-!
# Binary formats, and the nearest magnitude to a quotient

A non-negative number of a binary interchange format is named by its *code*: the natural number
that its exponent and fraction fields spell together. Codes are ordered as the magnitudes are, and
every finite magnitude is a whole number of *units*, the unit being the least positive magnitude.
So all of rounding happens in `Nat`: `units` says what a code is worth, and `nearest` finds the code
closest to a quotient of naturals, a tie going to the even code and everything too large to
infinity.
-/

namespace Reckon.Number

-- Powers of naturals are the ones of core, whatever other powers are in scope.
attribute [local instance (high)] instPowNat

/-- A binary interchange format, given by the widths of its fraction and exponent fields. -/
structure Format where
  fraction : Nat
  exponent : Nat
deriving DecidableEq, Repr

namespace Format

/-- Double precision. -/
def binary64 : Format := ⟨52, 11⟩

/-- Single precision. -/
def binary32 : Format := ⟨23, 8⟩

/-- The unit of the format is two to the minus this: 1074 in double precision. -/
def places (f : Format) : Nat := 2 ^ (f.exponent - 1) + f.fraction - 2

/-- The weight of the sign bit, which stands above the two fields. -/
def signBit (f : Format) : Nat := 2 ^ (f.exponent + f.fraction)

/-- The code of infinity: exponent field full, fraction field empty. Every greater code below the
sign bit is no number. -/
def infinity (f : Format) : Nat := (2 ^ f.exponent - 1) * 2 ^ f.fraction

/-- The significand of a finite code: the fraction field, under the hidden bit unless the exponent
field is empty. -/
def significand (f : Format) (code : Nat) : Nat :=
  let m := code % 2 ^ f.fraction
  if code / 2 ^ f.fraction = 0 then m else 2 ^ f.fraction + m

/-- A step from a finite code to the next is worth two to the power of this. The lowest two exponent
fields share the step of one unit, and each further one doubles it. -/
def stepLog (f : Format) (code : Nat) : Nat := code / 2 ^ f.fraction - 1

/-- What a finite code is worth, in units. -/
def units (f : Format) (code : Nat) : Nat := f.significand code * 2 ^ f.stepLog code

/-- A quotient rounded to a natural number, a half going to the even neighbour. -/
def halfEven (num den : Nat) : Nat :=
  let q := num / den
  let r := num % den
  if 2 * r < den then q else if den < 2 * r then q + 1 else q + q % 2

/-- The code nearest to `num / den` units. The quotient is cut to the format's significand by
dropping `shift` bits; a carry out of the significand moves on to the next exponent by itself,
because codes of successive exponents follow each other. -/
def nearest (f : Format) (num den : Nat) : Nat :=
  let shift := (num / den).log2 - f.fraction
  min (shift * 2 ^ f.fraction + halfEven num (den * 2 ^ shift)) f.infinity

/-! ## A finite magnitude is its own nearest one -/

theorem halfEven_mul (a : Nat) {d : Nat} (hd : 0 < d) : halfEven (a * d) d = a := by
  simp [halfEven, Nat.mul_div_cancel a hd, hd]

theorem significand_add_stepLog (f : Format) (code : Nat) :
    f.stepLog code * 2 ^ f.fraction + f.significand code = code := by
  have hpos : 0 < 2 ^ f.fraction := Nat.two_pow_pos _
  have hdiv := Nat.div_add_mod code (2 ^ f.fraction)
  unfold stepLog significand
  cases he : code / 2 ^ f.fraction with
  | zero => rw [he] at hdiv; simpa using hdiv
  | succ e =>
    rw [he] at hdiv
    simp only [Nat.add_sub_cancel, Nat.succ_ne_zero, if_false, Nat.mul_add, Nat.mul_one] at hdiv ⊢
    rw [Nat.mul_comm e]
    omega

/-- The bits that are dropped from the units of a code are those of its step. -/
theorem log2_units (f : Format) (code : Nat) :
    (f.units code).log2 - f.fraction = f.stepLog code := by
  have hpos : 0 < 2 ^ f.fraction := Nat.two_pow_pos _
  have hlt : code % 2 ^ f.fraction < 2 ^ f.fraction := Nat.mod_lt _ hpos
  unfold units stepLog significand
  cases he : code / 2 ^ f.fraction with
  | zero =>
    simp only [if_true, Nat.zero_sub, Nat.pow_zero, Nat.mul_one]
    by_cases h0 : code % 2 ^ f.fraction = 0
    · simp [h0]
    · have := (Nat.log2_lt h0).2 hlt
      omega
  | succ e =>
    simp only [Nat.succ_ne_zero, if_false, Nat.add_sub_cancel]
    have hne : (2 ^ f.fraction + code % 2 ^ f.fraction) * 2 ^ e ≠ 0 :=
      Nat.mul_ne_zero (by omega) (by have := Nat.two_pow_pos e; omega)
    have : ((2 ^ f.fraction + code % 2 ^ f.fraction) * 2 ^ e).log2 = f.fraction + e := by
      rw [Nat.log2_eq_iff hne]
      constructor
      · rw [Nat.pow_add]
        exact Nat.mul_le_mul_right _ (by omega)
      · rw [show f.fraction + e + 1 = (f.fraction + 1) + e by omega, Nat.pow_add (n := e)]
        exact Nat.mul_lt_mul_of_pos_right (by rw [Nat.pow_succ]; omega) (Nat.two_pow_pos e)
    omega

theorem nearest_units {f : Format} {code : Nat} (h : code < f.infinity) {d : Nat} (hd : 0 < d) :
    f.nearest (f.units code * d) d = code := by
  have hd' : 0 < d * 2 ^ f.stepLog code := Nat.mul_pos hd (Nat.two_pow_pos _)
  have : f.units code * d = f.significand code * (d * 2 ^ f.stepLog code) := by
    rw [units, Nat.mul_assoc, Nat.mul_comm d]
  rw [nearest, Nat.mul_div_cancel _ hd, log2_units, this, halfEven_mul _ hd',
    significand_add_stepLog]
  omega

end Format

end Reckon.Number
