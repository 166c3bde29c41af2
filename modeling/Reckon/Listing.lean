import Reckon.Fault

/-!
# Listings

An expression written operands first, in reverse Polish order: every operator and call stands after
what it works on, so a listing needs no parentheses. A listing is run on a stack, and what the
values on the stack are is up to the meaning given to the items: numbers, to compute; trees, to
read an expression back.
-/

namespace Reckon

/-- One item of a listing. A call carries the number of its arguments. -/
inductive Item
  | num (value : Float)
  | var (name : String)
  | op (op : Operator)
  | call (f : Builtin) (count : Nat)
deriving DecidableEq

/-- An expression in reverse Polish order. -/
abbrev Listing := List Item

/-- The text of an item. -/
def Item.text : Item → String
  | num v => Number.text v
  | var x => x
  | op o => o.word
  | call f n => s!"{f.name}/{n}"

namespace Listing

/-- The texts of the items, with a space between any two. -/
def line (l : Listing) : String := " ".intercalate (l.map Item.text)

/-- What the items of a listing mean on values of a type. -/
structure Meaning (α : Type) where
  num : Float → α
  var : String → Except Fault α
  neg : α → α
  bin : BinOp → α → α → α
  call : Builtin → List α → Except Fault α

/-- Takes `n` values off a stack, in the order in which they were put there, before `args`. -/
def popArguments {α : Type} : Nat → List α → List α → Option (List α × List α)
  | 0, args, stack => some (args, stack)
  | n + 1, args, a :: stack => popArguments n (a :: args) stack
  | _ + 1, _, [] => none

variable {α : Type} (m : Meaning α)

/-- The effect of one item on a stack, the latest value first. -/
def step : Item → List α → Except Fault (List α)
  | .num v, stack => .ok (m.num v :: stack)
  | .var x, stack => (m.var x).map (· :: stack)
  | .op .neg, a :: stack => .ok (m.neg a :: stack)
  | .op (.bin o), b :: a :: stack => .ok (m.bin o a b :: stack)
  | .op _, _ => .error .missingOperand
  | .call f n, stack =>
    match popArguments n [] stack with
    | some (args, stack) => (m.call f args).map (· :: stack)
    | none => .error (.missingArguments f)

/-- Runs a listing on a stack. -/
def run : Listing → List α → Except Fault (List α)
  | [], stack => .ok stack
  | i :: l, stack =>
    match step m i stack with
    | .ok stack => run l stack
    | .error e => .error e

/-- What a listing as a whole means: the one value that it leaves on the empty stack. -/
def result (l : Listing) : Except Fault α :=
  match run m l [] with
  | .ok [a] => .ok a
  | .ok _ => .error .notOneValue
  | .error e => .error e

/-- Two listings in a row run one after the other. -/
theorem run_append (l k : Listing) (stack : List α) :
    run m (l ++ k) stack = (run m l stack).bind (run m k) := by
  induction l generalizing stack with
  | nil => rfl
  | cons i l ih =>
    simp only [List.cons_append, run]
    cases step m i stack with
    | ok s => exact ih s
    | error e => rfl

/-- The values on top of a stack are taken off and put back into their order. -/
theorem popArguments_append (top args stack : List α) :
    popArguments top.length args (top ++ stack) = some (top.reverse ++ args, stack) := by
  induction top generalizing args with
  | nil => rfl
  | cons a top ih => simp [popArguments, ih]

/-- The first name in a listing. -/
def firstName? : Listing → Option String
  | [] => none
  | .var x :: _ => some x
  | _ :: l => firstName? l

end Listing

end Reckon
