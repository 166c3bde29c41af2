import Reckon.Number.Decimal

/-!
# The shortest decimal that reads back

Of the decimals that round to a given magnitude, `Format.shortest` is one with the fewest digits,
and of those the nearest. It is found by trying the decimals of one digit next to the exact value,
then those of two, and so on, and each is rounded before it is taken; so whatever is found reads
back (`ofDecimal_shortest`).
-/

namespace Reckon.Number

-- Powers of naturals are the ones of core, whatever other powers are in scope.
attribute [local instance (high)] instPowNat

namespace Format

/-- The step from a finite code to the next as a decimal, exactly: `1 / 2 ^ k` is
`5 ^ k / 10 ^ k`. -/
def stepDecimal (f : Format) (code : Nat) : Decimal :=
  let k := f.places - f.stepLog code
  if k = 0 then ⟨2 ^ (f.stepLog code - f.places), 0⟩ else ⟨5 ^ k, -k⟩

/-- The value of a finite code as a decimal, exactly. -/
def exact (f : Format) (code : Nat) : Decimal :=
  let step := f.stepDecimal code
  ⟨f.significand code * step.digits, step.exponent⟩

/-- The decimals of `n` digits on either side of `d`, which has `length` digits: the nearer one
first, the upper one first in a tie. Those farther from `d` than half of `step` are left out. A
carry out of the top digit leaves a single digit. -/
def neighbours (d : Decimal) (step length n : Nat) : List Decimal :=
  let unit := 10 ^ (length - n)
  let low := d.digits / unit
  let below := d.digits % unit
  let above := unit - below
  let exponent := d.exponent + (length - n : Nat)
  let lower : List Decimal := if 2 * below ≤ step then [⟨low, exponent⟩] else []
  let upper : List Decimal :=
    if 2 * above ≤ step then
      [if low + 1 = 10 ^ n then ⟨1, exponent + n⟩ else ⟨low + 1, exponent⟩]
    else []
  if below < above then lower ++ upper else upper ++ lower

/-- The number of decimal digits of a positive number: what its binary digits come to, at 1233
decimal for 4096 binary ones, or one more. -/
def digitCount (n : Nat) : Nat :=
  let count := n.log2 * 1233 / 4096 + 1
  if 10 ^ count ≤ n then count + 1 else count

/-- The most digits tried before the exact value is written out; seventeen tell all doubles
apart. -/
def mostDigits : Nat := 17

/-- The decimal with the fewest digits that rounds back to a finite code, the nearest of those.
Only what lies within half a step of the value can round back, which is quick to see; what does is
then rounded to make sure. -/
def shortest (f : Format) (code : Nat) : Decimal :=
  let d := f.exact code
  let step := (f.stepDecimal code).digits
  let length := digitCount d.digits
  let reads (c : Decimal) : Bool := f.ofDecimal c == code
  let found := (List.range mostDigits).findSome? fun i =>
    (neighbours d step length (i + 1)).find? reads
  if code = 0 then ⟨0, 0⟩ else found.getD d

/-! ## What is written reads back -/

/-- The exact decimal of a finite magnitude rounds to it. -/
theorem ofDecimal_exact {f : Format} {code : Nat} (h : code < f.infinity) :
    f.ofDecimal (f.exact code) = code := by
  unfold ofDecimal exact stepDecimal
  cases hk : f.places - f.stepLog code with
  | zero =>
    have hs : f.stepLog code - f.places + f.places = f.stepLog code := by omega
    have := nearest_units h Nat.one_pos
    simpa [Decimal.ratio, units, Nat.mul_assoc, ← Nat.pow_add, hs] using this
  | succ k =>
    have hs : f.places = f.stepLog code + (k + 1) := by omega
    have := nearest_units h (Nat.pow_pos (n := k + 1) (show 0 < 10 by decide))
    have htwo : 2 ^ f.places = 2 ^ f.stepLog code * 2 ^ (k + 1) := by
      rw [hs]; exact Nat.pow_add ..
    have hten : 10 ^ (k + 1) = 5 ^ (k + 1) * 2 ^ (k + 1) := Nat.mul_pow 5 2 (k + 1)
    have he : f.units code * 10 ^ (k + 1) = f.significand code * 5 ^ (k + 1) * 2 ^ f.places := by
      rw [units, htwo, hten]
      ac_rfl
    rw [he] at this
    exact this

/-- The decimal that is written for a finite magnitude rounds back to it. -/
theorem ofDecimal_shortest {f : Format} {code : Nat} (h : code < f.infinity) :
    f.ofDecimal (f.shortest code) = code := by
  unfold shortest
  dsimp only
  split
  · subst code
    have := nearest_units h Nat.one_pos
    simpa [ofDecimal, Decimal.ratio, units, significand] using this
  · generalize hfound : List.findSome? _ _ = found
    cases found with
    | none => exact ofDecimal_exact h
    | some c =>
      obtain ⟨_, _, hc⟩ := List.exists_of_findSome?_eq_some hfound
      simpa using List.find?_some hc

end Format

end Reckon.Number
