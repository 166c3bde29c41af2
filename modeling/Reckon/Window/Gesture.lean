import Reckon.Window

/-!
# Gestures

What a person does to the window. A click may take the keyboard away from the entry, and an entry
that loses the keyboard is evaluated. This happens in the middle of the click: buttons above the
point where the entry notices act before it, the others after it. So `C` on a focused entry
evaluates the emptied entry, and a function button evaluates the entry before it adds to it.
-/

namespace Reckon

/-- The buttons that are always there. -/
inductive Button
  | clearEntry
  | clearResults
  | reset
  | evaluate
  | function (f : Builtin)
  | constant (name : String)
  | addRow
deriving DecidableEq

namespace Button

/-- The constants that have a button. -/
def offeredConstants : List String := ["pi", "e"]

/-- The row of buttons under the entry. -/
def actions : List Button := [clearEntry, clearResults, reset, evaluate]

/-- The buttons that add to the entry. -/
def words : List Button := Builtin.all.map function ++ offeredConstants.map constant

/-- What a button says. -/
def label : Button → String
  | clearEntry => "C"
  | clearResults => "CLR"
  | reset => "AC"
  | evaluate => "="
  | function f => f.name
  | constant x => x
  | addRow => "+ variable"

/-- The button that says so. -/
def ofLabel? (label : String) : Option Button :=
  (actions ++ words ++ [addRow]).find? (·.label == label)

/-- What a button does before an entry that loses the keyboard is evaluated. -/
def actBefore : Button → Window → Window
  | clearEntry, w => w.clearEntry
  | clearResults, w => w.clearResults
  | reset, _ => Window.fresh
  | _, w => w

/-- What a button does after that. -/
def actAfter : Button → Window → Window
  | function f, w => w.insertCall f.name
  | constant x, w => w.insertWord x
  | addRow, w =>
    if w.hasRoom then w.addRow else w.complain (.ofScope "nombre maximal de variables atteint")
  | _, w => w

end Button

namespace Window

/-- A click on a button, while the entry has the keyboard or not. -/
def press (w : Window) (b : Button) (focused : Bool) (order : Scope.Order := .byName) : Window :=
  let w := b.actBefore w
  b.actAfter (if focused || b = .evaluate then w.refresh order else w)

/-- A text as a field of one line takes it: line ends become spaces. -/
def oneLine (s : String) : String :=
  String.ofList (s.toList.map fun c => if c = '\r' ∨ c = '\n' then ' ' else c)

end Window

/-- What a person does to the window. -/
inductive Gesture
  /-- A click on a button, while the entry has the keyboard or not. -/
  | press (b : Button) (focused : Bool)
  /-- A click on the button that removes a row, while the entry has the keyboard or not. -/
  | removeRow (i : Nat) (focused : Bool := false)
  /-- Enter in the entry. -/
  | enter
  | escape
  /-- The whole text of the simple field is replaced. -/
  | typeSimple (text : String)
  /-- The window is drawn, and nothing is done. -/
  | look
deriving DecidableEq

namespace Window

/-- The window without its wish for the keyboard, which has been granted. -/
def granted (w : Window) : Window := { w with wantsFocus := false }

/-- The window after a gesture. If it evaluates the entry, then in a scope with this order. -/
def after (w : Window) (g : Gesture) (order : Scope.Order := .byName) : Window :=
  match g with
  | .press b focused => w.granted.press b focused order
  | .removeRow i focused => (if focused then w.granted.refresh order else w.granted).removeRow i
  | .enter => w.granted.refresh order
  | .escape => w.clearEntry.granted
  | .typeSimple text => w.granted.editSimple (oneLine text)
  | .look => w.granted

end Window

end Reckon
