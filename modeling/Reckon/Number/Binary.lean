import Reckon.Number.Shortest

/-!
# Binary floating-point types

The two types of machine numbers, seen through their bits: a sign over a code of their format.
`text` writes a number with the fewest digits that read back, always positionally; `ofDecimal`
rounds a decimal to the nearest number.
-/

namespace Reckon.Number

/-- A type of binary floating-point numbers, by its bits. -/
class Binary (α : Type) where
  format : Format
  toBits : α → Nat
  ofBits : Nat → α

instance : Binary Float where
  format := .binary64
  toBits v := v.toBits.toNat
  ofBits n := Float.ofBits (UInt64.ofNat n)

instance : Binary Float32 where
  format := .binary32
  toBits v := v.toBits.toNat
  ofBits n := Float32.ofBits (UInt32.ofNat n)

variable {α : Type} [Binary α]

/-- Whether the sign bit is set; so it is of a negative zero. -/
def isSigned (v : α) : Bool := (Binary.format α).signBit ≤ Binary.toBits v

/-- The code of the absolute value. -/
def code (v : α) : Nat := Binary.toBits v % (Binary.format α).signBit

/-- The number with a given sign and code. -/
def ofCode (signed : Bool) (code : Nat) : α :=
  Binary.ofBits (if signed then (Binary.format α).signBit + code else code)

/-- The nearest number to a decimal, or to its opposite. -/
def ofDecimal (signed : Bool) (d : Decimal) : α :=
  ofCode signed ((Binary.format α).ofDecimal d)

/-- The text of a number: the fewest digits that read back, without an exponent; `inf` and `NaN`
for the rest. Only `NaN` shows no sign. -/
def text (v : α) : String :=
  let f := Binary.format α
  let c := code v
  if f.infinity < c then "NaN"
  else
    let digits := if c = f.infinity then "inf" else String.ofList (f.shortest c).chars
    if isSigned v then "-" ++ digits else digits

end Reckon.Number
