import Reckon.Fault
import Reckon.Number.Elementary

/-!
# Applying a function

A function is applied to a list of arguments in the precision of their type. The only fault is a
number of arguments that the function does not accept; a result outside the finite numbers is an
ordinary value here.
-/

namespace Reckon.Builtin

open Number

/-- Refuses a number of arguments that the function does not accept. -/
def checkArity (f : Builtin) (count : Nat) : Except Fault Unit :=
  if f.arity.accepts count then .ok () else .error (.arity f count)

/-- The value of a function at some arguments. -/
def apply {α : Type} [Elementary α] (f : Builtin) (args : List α) : Except Fault α :=
  match f, args with
  | sqrt, [x] => .ok (Elementary.sqrt x)
  | sin, [x] => .ok (Elementary.sin x)
  | cos, [x] => .ok (Elementary.cos x)
  | tan, [x] => .ok (Elementary.tan x)
  | log, [x] => .ok (Elementary.log10 x)
  | ln, [x] => .ok (Elementary.ln x)
  | abs, [x] => .ok (Elementary.abs x)
  | exp, [x] => .ok (Elementary.exp x)
  | pow, [x, y] => .ok (Elementary.pow x y)
  | min, x :: xs => .ok (xs.foldl least x)
  | max, x :: xs => .ok (xs.foldl greatest x)
  | f, args => .error (.arity f args.length)

end Reckon.Builtin
