import Reckon.Number.Binary

/-!
# Numerals with a sign and an exponent

The full notation for a machine number: an optional sign, then `inf`, `infinity` or `nan` in any
case, or decimal digits with an optional point and an optional exponent. At least one digit stands
before or after the point. The lexer of expressions reads a smaller notation of its own; this one
is for values that are given as a text by themselves.
-/

namespace Reckon.Number

-- Powers of naturals are the ones of core, whatever other powers are in scope.
attribute [local instance (high)] instPowNat

namespace Format

/-- As `ofDecimal`, for an exponent of any size: a decimal whose leading digit stands more than
`places` places from the point is out of range, and its power of ten is never computed. -/
def ofScaled (f : Format) (d : Decimal) : Nat :=
  let top := ((Nat.toDigits 10 d.digits).length : Int) + d.exponent
  if d.digits = 0 then 0
  else if (f.places : Int) < top then f.infinity
  else if top < -(f.places : Int) then 0
  else f.ofDecimal d

/-- The code of the quiet value that is no number. -/
def quiet (f : Format) : Nat := f.infinity + 2 ^ (f.fraction - 1)

end Format

/-- Splits off a leading sign; without one the number is not negative. -/
def splitSign : List Char → Bool × List Char
  | '-' :: cs => (true, cs)
  | '+' :: cs => (false, cs)
  | cs => (false, cs)

/-- A non-empty row of digits up to the end of the text. -/
def natural? (cs : List Char) : Option Nat :=
  if cs.isEmpty || !cs.all Char.isDigit then none else some (Nat.ofDigitChars 10 cs 0)

/-- The exponent that ends a numeral; a numeral without one has exponent zero. -/
def exponent? : List Char → Option Int
  | [] => some 0
  | c :: cs =>
    if c = 'e' ∨ c = 'E' then
      let (negative, ds) := splitSign cs
      (natural? ds).map fun n => if negative then -(n : Int) else n
    else none

/-- The digits after a point, and the rest. -/
def fractionPart : List Char → List Char × List Char
  | '.' :: cs => (cs.takeWhile Char.isDigit, cs.dropWhile Char.isDigit)
  | cs => ([], cs)

/-- An unsigned decimal with an optional exponent. -/
def scientific? (cs : List Char) : Option Decimal :=
  let whole := cs.takeWhile Char.isDigit
  let (part, rest) := fractionPart (cs.dropWhile Char.isDigit)
  if whole.isEmpty && part.isEmpty then none
  else (exponent? rest).map fun e =>
    let d := Decimal.ofDigits whole part
    ⟨d.digits, d.exponent + e⟩

/-- The code of an unsigned numeral, words included. -/
def Format.ofNumeral? (f : Format) (cs : List Char) : Option Nat :=
  let word := String.ofList (cs.map Char.toLower)
  if word = "inf" ∨ word = "infinity" then some f.infinity
  else if word = "nan" then some f.quiet
  else (scientific? cs).map f.ofScaled

/-- The number that a text spells, if it is a numeral from end to end. -/
def ofText? {α : Type} [Binary α] (s : String) : Option α :=
  let (signed, cs) := splitSign s.toList
  ((Binary.format α).ofNumeral? cs).map (ofCode signed)

end Reckon.Number
