/-!
# Elementary functions

What the functions of an expression need of a number type, in either precision. `least` and
`greatest` ignore a value that is no number when the other is one; of two equal values, such as the
two zeros, they keep the second.
-/

namespace Reckon.Number

/-- A number type with the elementary functions. -/
class Elementary (α : Type) where
  sqrt : α → α
  sin : α → α
  cos : α → α
  tan : α → α
  log10 : α → α
  ln : α → α
  abs : α → α
  exp : α → α
  pow : α → α → α
  isNaN : α → Bool
  lt : α → α → Bool

instance : Elementary Float where
  sqrt := Float.sqrt
  sin := Float.sin
  cos := Float.cos
  tan := Float.tan
  log10 := Float.log10
  ln := Float.log
  abs := Float.abs
  exp := Float.exp
  pow := Float.pow
  isNaN := Float.isNaN
  lt a b := a < b

instance : Elementary Float32 where
  sqrt := Float32.sqrt
  sin := Float32.sin
  cos := Float32.cos
  tan := Float32.tan
  log10 := Float32.log10
  ln := Float32.log
  abs := Float32.abs
  exp := Float32.exp
  pow := Float32.pow
  isNaN := Float32.isNaN
  lt a b := a < b

variable {α : Type} [Elementary α]

/-- The smaller of two numbers. -/
def least (a b : α) : α :=
  if Elementary.isNaN a then b
  else if Elementary.isNaN b then a
  else if Elementary.lt a b then a else b

/-- The larger of two numbers. -/
def greatest (a b : α) : α :=
  if Elementary.isNaN a then b
  else if Elementary.isNaN b then a
  else if Elementary.lt b a then a else b

end Reckon.Number
