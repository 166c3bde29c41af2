import Reckon.Expr.Printer
import Reckon.Expr.Value
import Reckon.Listing.Reading
import Reckon.Scope
import Reckon.Token.Lexer

/-!
# Evaluating a text

A text goes through tokens and a listing to a tree; the names of the tree are bound, first by the
scope and then by the constants; and the value of the bound tree must be a finite number.
`evaluate` keeps the value only, `analyse` every stage on the way.

The stages stand in a fixed order, and the first one that fails decides the fault. A blank text is
refused before the scope is looked at, and the scope before the text is read.

There may be no scope at all. Then there is none to be refused, and no name is looked up; an empty
scope is not asked for any name either. So `evaluateIn` and `analyseIn` take a scope or none, and
`evaluate` and `analyse` are what they do in a scope.
-/

namespace Reckon

/-- A text that has been read. -/
structure Parsed where
  tokens : List Token
  listing : Listing
  tree : Expr

/-- Reads a text. -/
def Parsed.ofText (s : String) : Except Fault Parsed := do
  let tokens ← Token.scan s
  let listing ← Listing.ofTokens tokens
  let tree ← Expr.ofListing listing
  return ⟨tokens, listing, tree⟩

namespace Expr

/-- A tree with its names bound by a scope, if there is one with a name in it. -/
def bindIn (e : Expr) (scope : Option Scope) : Expr :=
  match scope.filter (!·.isEmpty) with
  | some scope => e.bind scope.find?
  | none => e

/-- A tree with its names bound, first by the scope and then by the constants. -/
def settleIn (e : Expr) (scope : Option Scope) : Expr := (e.bindIn scope).bind constant?

/-- A tree with its names bound by a scope, and those that the scope leaves by the constants. -/
def settle (e : Expr) (scope : Scope) : Expr := e.settleIn (some scope)

/-- The value of a tree with no name left in it, if it is finite. -/
def checkedValue (e : Expr) : Except Fault Float := do
  e.checkBound
  e.finiteValue

end Expr

/-- A text without its blanks, if it is not all blank and the scope is usable. -/
def admitText (text : String) (scope : Option Scope) : Except Fault String := do
  let s := Text.compact text
  if s.isEmpty then throw .blankText
  if let some scope := scope then scope.checkFinite
  return s

/-- The value of an expression, in a scope if there is one. -/
def evaluateIn (text : String) (scope : Option Scope) : Except Fault Float := do
  let s ← admitText text scope
  let parsed ← Parsed.ofText s
  (parsed.tree.settleIn scope).checkedValue

/-- An evaluation with all its stages. -/
structure Analysis where
  tokens : List Token
  listing : Listing
  /-- The tree as it was read. -/
  parsed : Expr
  /-- The tree with its names bound. -/
  bound : Expr
  value : Float

/-- The evaluation of an expression, in a scope if there is one. -/
def analyseIn (text : String) (scope : Option Scope) : Except Fault Analysis := do
  let s ← admitText text scope
  let parsed ← Parsed.ofText s
  let bound := parsed.tree.settleIn scope
  let value ← bound.checkedValue
  return ⟨parsed.tokens, parsed.listing, parsed.tree, bound, value⟩

/-- The value of an expression in a scope. -/
def evaluate (text : String) (scope : Scope) : Except Fault Float := evaluateIn text (some scope)

/-- The evaluation of an expression in a scope. -/
def analyse (text : String) (scope : Scope) : Except Fault Analysis := analyseIn text (some scope)

end Reckon
