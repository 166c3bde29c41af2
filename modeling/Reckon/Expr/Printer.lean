import Reckon.Expr

/-!
# The text of a tree

A tree is written with as few parentheses as its reading back allows. `tightness` says how tightly
the text of a tree holds together, and every place in a text asks for a least tightness; a tree
that falls short of it is put between parentheses.

`render` keeps the parts still to be written on a worklist, and `render_eq_text` says that it writes
the text given by recursion.
-/

namespace Reckon.Expr

/-- How tightly the text of a tree holds together. A negative number has a sign, as an opposite
has; a number, a name and a call never need parentheses. -/
def tightness : Expr → Nat
  | num v => if v < 0 then 3 else 5
  | neg _ => Operator.neg.tightness
  | bin op _ _ => (Operator.bin op).tightness
  | var _ | call _ _ => 5

/-- The least tightness of the left operand of an operator. -/
def leftTightness : BinOp → Nat
  | .add | .sub => 1
  | .mul | .div => 2
  | .pow => 5

/-- The least tightness of the right operand of an operator. -/
def rightTightness : BinOp → Nat
  | .add | .sub => 2
  | .mul | .div => 3
  | .pow => 4

/-- The least tightness of what a sign stands before. -/
def signedTightness : Nat := 4

/-- The symbol of an operator with its spaces. -/
def spaced : BinOp → String
  | .pow => "^"
  | op => " " ++ op.symbol ++ " "

/-- Puts a text between parentheses if asked to. -/
def enclose (needed : Bool) (s : String) : String := if needed then "(" ++ s ++ ")" else s

mutual

/-- The text of a tree at a place that asks for a least tightness. -/
def textAt (least : Nat) : Expr → String
  | num v => enclose ((num v).tightness < least) (Number.text v)
  | var x => enclose ((var x).tightness < least) x
  | neg e => enclose ((neg e).tightness < least) ("-" ++ e.textAt signedTightness)
  | bin op a b => enclose ((bin op a b).tightness < least)
      (a.textAt (leftTightness op) ++ spaced op ++ b.textAt (rightTightness op))
  | call f args => enclose ((call f args).tightness < least)
      (f.name ++ "(" ++ textOfAll "" args ++ ")")

/-- The texts of some arguments, each after a separator, which is a comma for all but the first. -/
def textOfAll (separator : String) : List Expr → String
  | [] => ""
  | a :: args => separator ++ a.textAt 0 ++ textOfAll ", " args

end

/-- The text of a tree. -/
def text (e : Expr) : String := e.textAt 0

/-! ## Writing with a worklist -/

/-- A part of a text that is still to be written. -/
inductive Part
  | word (w : String)
  | tree (least : Nat) (e : Expr)

/-- The parts of the text of some arguments, as in `textOfAll`. -/
def argumentParts (separator : String) : List Expr → List Part
  | [] => []
  | a :: args => .word separator :: .tree 0 a :: argumentParts ", " args

/-- The parts of the text of a tree, without parentheses around it. -/
def parts : Expr → List Part
  | num v => [.word (Number.text v)]
  | var x => [.word x]
  | neg e => [.word "-", .tree signedTightness e]
  | bin op a b => [.tree (leftTightness op) a, .word (spaced op), .tree (rightTightness op) b]
  | call f args => .word f.name :: .word "(" :: argumentParts "" args ++ [.word ")"]

namespace Part

/-- A bound on how much work a part is: four for every node below it. -/
noncomputable def weight : Part → Nat
  | word _ => 1
  | tree _ e => 4 * sizeOf e

/-- A bound on how much work some parts are. -/
noncomputable def weightOfAll : List Part → Nat
  | [] => 0
  | p :: todo => weight p + weightOfAll todo

theorem weightOfAll_append (ps qs : List Part) :
    weightOfAll (ps ++ qs) = weightOfAll ps + weightOfAll qs := by
  induction ps with
  | nil => simp only [List.nil_append, weightOfAll]; omega
  | cons p ps ih => simp only [List.cons_append, weightOfAll, ih]; omega

theorem weight_argumentParts (separator : String) (args : List Expr) :
    weightOfAll (argumentParts separator args) + 2 ≤ 4 * sizeOf args := by
  induction args generalizing separator with
  | nil => simp only [argumentParts, weightOfAll, List.nil.sizeOf_spec]; omega
  | cons a args ih =>
    have := ih ", "
    simp only [argumentParts, weightOfAll, weight, List.cons.sizeOf_spec]
    omega

theorem weight_parts (least : Nat) (e : Expr) :
    weightOfAll (parts e) + 2 < weight (.tree least e) := by
  cases e with
  | num v => simp only [parts, weightOfAll, weight, num.sizeOf_spec]; omega
  | var x => simp only [parts, weightOfAll, weight, var.sizeOf_spec]; omega
  | neg e => simp only [parts, weightOfAll, weight, neg.sizeOf_spec]; omega
  | bin op a b => simp only [parts, weightOfAll, weight, bin.sizeOf_spec]; omega
  | call f args =>
    have := weight_argumentParts "" args
    simp only [parts, List.cons_append, weightOfAll, weightOfAll_append, weight, call.sizeOf_spec]
    omega

/-- What is left to write once the node of a tree is taken apart. -/
def expand (least : Nat) (e : Expr) (rest : List Part) : List Part :=
  if e.tightness < least then word "(" :: parts e ++ word ")" :: rest else parts e ++ rest

theorem weight_expand (least : Nat) (e : Expr) (rest : List Part) :
    weightOfAll (expand least e rest) < weight (.tree least e) + weightOfAll rest := by
  have := weight_parts least e
  unfold expand
  split
  · simp only [List.cons_append, weightOfAll, weightOfAll_append, weight] at this ⊢
    omega
  · rw [weightOfAll_append]
    omega

/-- The text of a part. -/
def text : Part → String
  | word w => w
  | tree least e => e.textAt least

/-- Writes the parts of a worklist after `out`. -/
def writeFrom : List Part → String → String
  | [], out => out
  | word w :: todo, out => writeFrom todo (out ++ w)
  | tree least e :: todo, out => writeFrom (expand least e todo) out
termination_by todo => weightOfAll todo
decreasing_by
  · simp only [weightOfAll, weight]; omega
  · exact weight_expand least e todo

end Part

/-- The text of a tree. -/
def render (e : Expr) : String := Part.writeFrom [.tree 0 e] ""

namespace Part

/-- The texts of some parts in a row. -/
def textOf : List Part → String
  | [] => ""
  | p :: todo => p.text ++ textOf todo

theorem textOf_append (ps qs : List Part) : textOf (ps ++ qs) = textOf ps ++ textOf qs := by
  induction ps with
  | nil => simp [textOf]
  | cons p ps ih => simp [textOf, ih, String.append_assoc]

theorem textOf_argumentParts (separator : String) (args : List Expr) :
    textOf (argumentParts separator args) = textOfAll separator args := by
  induction args generalizing separator with
  | nil => rfl
  | cons a args ih => simp [argumentParts, textOf, text, textOfAll, ih, String.append_assoc]

theorem textOf_parts (least : Nat) (e : Expr) :
    enclose (e.tightness < least) (textOf (parts e)) = e.textAt least := by
  cases e with
  | num v => simp [parts, textOf, text, textAt]
  | var x => simp [parts, textOf, text, textAt]
  | neg e => simp [parts, textOf, text, textAt]
  | bin op a b => simp [parts, textOf, text, textAt, String.append_assoc]
  | call f args =>
    simp [parts, textOf, text, textAt, textOf_append, textOf_argumentParts, String.append_assoc]

theorem textOf_expand (least : Nat) (e : Expr) (rest : List Part) :
    textOf (expand least e rest) = e.textAt least ++ textOf rest := by
  rw [← textOf_parts, expand]
  split <;> simp [enclose, textOf, textOf_append, text, String.append_assoc, *]

theorem writeFrom_eq (todo : List Part) (out : String) :
    writeFrom todo out = out ++ textOf todo := by
  fun_induction writeFrom todo out with
  | case1 out => simp [textOf]
  | case2 out w todo ih => simp [ih, textOf, text, String.append_assoc]
  | case3 out least e todo ih => simp [ih, textOf_expand, textOf, text]

end Part

/-- The worklist writes the text of the tree. -/
theorem render_eq_text (e : Expr) : e.render = e.text := by
  simp [render, Part.writeFrom_eq, Part.textOf, Part.text, text]

end Reckon.Expr
