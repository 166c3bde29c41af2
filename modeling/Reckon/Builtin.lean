/-!
# Named functions and constants

The functions an expression may call, in the order in which they are offered, each with its name
and the number of arguments it accepts; and the constants it may name. Names are matched exactly.
-/

namespace Reckon

/-- A function of the language. `log` is the decimal logarithm and `ln` the natural one. -/
inductive Builtin
  | sqrt | sin | cos | tan | log | ln | abs | exp | pow | min | max
deriving DecidableEq, Repr

/-- The numbers of arguments that a function accepts. -/
inductive Arity
  | exactly (count : Nat)
  | atLeast (count : Nat)
deriving DecidableEq, Repr

namespace Arity

def accepts : Arity → Nat → Bool
  | exactly k, n => n == k
  | atLeast k, n => k ≤ n

def text : Arity → String
  | exactly 1 => "1 argument"
  | exactly k => s!"{k} arguments"
  | atLeast k => s!"at least {k} argument(s)"

end Arity

namespace Builtin

/-- Every function, in the order of the buttons. -/
def all : List Builtin := [sqrt, sin, cos, tan, log, ln, abs, exp, pow, min, max]

def name : Builtin → String
  | sqrt => "sqrt"
  | sin => "sin"
  | cos => "cos"
  | tan => "tan"
  | log => "log"
  | ln => "ln"
  | abs => "abs"
  | exp => "exp"
  | pow => "pow"
  | min => "min"
  | max => "max"

def arity : Builtin → Arity
  | pow => .exactly 2
  | min | max => .atLeast 1
  | _ => .exactly 1

/-- The function of a name. -/
def ofName? (name : String) : Option Builtin := all.find? (·.name == name)

theorem ofName?_name (f : Builtin) : ofName? f.name = some f := by cases f <;> decide

theorem name_of_ofName? {s : String} {f : Builtin} (h : ofName? s = some f) : f.name = s := by
  simpa using List.find?_some h

end Builtin

/-- The named constants: the number pi under two names, and the base of the natural logarithm. -/
def constants : List (String × Float) :=
  let pi := Float.ofBits 0x400921fb54442d18
  [("pi", pi), ("π", pi), ("e", Float.ofBits 0x4005bf0a8b145769)]

/-- The constant of a name. -/
def constant? (name : String) : Option Float := constants.lookup name

end Reckon
