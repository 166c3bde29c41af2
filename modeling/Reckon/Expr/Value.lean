import Reckon.Builtin.Value
import Reckon.Expr.Binding

/-!
# The value of a tree

A tree is computed in double precision, operands from left to right. A name has no value here: the
names that have one are bound before. A result outside the finite numbers is a value like any other
until the end, where `finiteValue` refuses it.
-/

namespace Reckon.Expr

/-- The items of a listing as numbers. -/
def numbers : Listing.Meaning Float where
  num v := v
  var x := .error (.unboundName x)
  neg a := -a
  bin := BinOp.apply
  call := Builtin.apply

/-- The value of a tree. -/
def value (e : Expr) : Except Fault Float := Listing.result numbers e.listing

mutual

/-- The value of a tree, by recursion. -/
def eval : Expr → Except Fault Float
  | num v => .ok v
  | var x => .error (.unboundName x)
  | neg e => do return -(← e.eval)
  | bin op a b => do
    let x ← a.eval
    let y ← b.eval
    return op.apply x y
  | call f args => do
    let xs ← evalAll args
    f.apply xs

/-- The values of some trees, up to the first that has none. -/
def evalAll : List Expr → Except Fault (List Float)
  | [] => .ok []
  | a :: args => do
    let x ← a.eval
    let xs ← evalAll args
    return x :: xs

end

theorem foldAll_numbers {args : List Expr} (h : ∀ a ∈ args, a.fold numbers = a.eval) :
    foldAll numbers args = evalAll args := by
  induction args with
  | nil => rfl
  | cons a args ih =>
    rw [foldAll, evalAll, h a (.head _), ih fun b hb => h b (.tail _ hb)]
    cases a.eval with
    | error e => rfl
    | ok x => cases evalAll args <;> rfl

theorem fold_numbers (e : Expr) : e.fold numbers = e.eval := by
  induction e using Expr.induction with
  | num v => rfl
  | var x => rfl
  | neg e ih =>
    rw [fold, eval, ih]
    cases e.eval <;> rfl
  | bin op a b iha ihb =>
    rw [fold, eval, iha, ihb]
    cases a.eval with
    | error e => rfl
    | ok x => cases b.eval <;> rfl
  | call f args ih =>
    rw [fold, eval, foldAll_numbers ih]
    cases evalAll args <;> rfl

/-- The run of the listing computes what the recursion computes, faults included. -/
theorem value_eq_eval (e : Expr) : e.value = e.eval := by
  rw [value, result_listing, fold_numbers]

/-- Refuses a tree that still holds a name, for the first one. -/
def checkBound (e : Expr) : Except Fault Unit :=
  match e.firstName? with
  | some x => .error (.unboundName x)
  | none => .ok ()

/-- The value of a tree, if it is a finite number. -/
def finiteValue (e : Expr) : Except Fault Float := do
  let v ← e.value
  if v.isFinite then .ok v else .error (.nonFiniteResult v)

end Reckon.Expr
