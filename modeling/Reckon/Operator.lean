/-!
# Operators

The five binary operators and the sign, with their symbols and how tightly they bind. A sign binds
tighter than a product and looser than a power, so `-2^2` is the opposite of a power.
-/

namespace Reckon

/-- An operator between two operands. -/
inductive BinOp
  | add | sub | mul | div | pow
deriving DecidableEq, Repr

/-- An operator of a listing: binary, or the sign that takes the opposite. -/
inductive Operator
  | neg
  | bin (op : BinOp)
deriving DecidableEq, Repr

namespace BinOp

/-- The symbol in an expression. -/
def symbol : BinOp → String
  | add => "+"
  | sub => "-"
  | mul => "*"
  | div => "/"
  | pow => "^"

/-- What the operator computes, in double precision. -/
def apply : BinOp → Float → Float → Float
  | add, a, b => a + b
  | sub, a, b => a - b
  | mul, a, b => a * b
  | div, a, b => a / b
  | pow, a, b => a.pow b

/-- Whether the symbol can also stand before an operand, as a sign. -/
def isSign : BinOp → Bool
  | add | sub => true
  | _ => false

end BinOp

namespace Operator

/-- The text in a listing, where the sign needs a word of its own. -/
def word : Operator → String
  | neg => "neg"
  | bin op => op.symbol

/-- How tightly an operator binds its operands. -/
def tightness : Operator → Nat
  | bin .add | bin .sub => 1
  | bin .mul | bin .div => 2
  | neg => 3
  | bin .pow => 4

/-- Whether `a ∘ b ∘ c` is `a ∘ (b ∘ c)`. -/
def groupsRight : Operator → Bool
  | bin .pow => true
  | _ => false

/-- Whether an operator already waiting takes the value between it and the operator `op` that
comes next: it binds tighter, or as tightly and `op` groups to the left. -/
def precedes (waiting op : Operator) : Bool :=
  if op.groupsRight then op.tightness < waiting.tightness else op.tightness ≤ waiting.tightness

end Operator

end Reckon
