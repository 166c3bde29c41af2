import Reckon.Simple
import Reckon.Window.Row

/-!
# The window

The state of a window with two fields: a full one, whose expression is evaluated in the scope that
the rows spell, on demand; and a simple one, which is evaluated at every change. This module holds
the state and the operations on it, the next ones the gestures that reach them and what is shown.

Two rules of the state need saying. The input of the last evaluation is kept, and an evaluation of
the same input does nothing. And a complaint leaves the last result where it is: only the working
goes, because it belongs to no result any more.
-/

namespace Reckon

/-- The four stages of an evaluation, as texts. -/
structure Working where
  tokens : String
  listing : String
  parsed : String
  bound : String
deriving DecidableEq

namespace Working

/-- Nothing to show. -/
def blank : Working := ⟨"", "", "", ""⟩

/-- The stages of an analysis. -/
def ofAnalysis (a : Analysis) : Working :=
  ⟨Token.line a.tokens, a.listing.line, a.parsed.render, a.bound.render⟩

end Working

/-- Why the last evaluation gave no result: the class of the fault and its text. -/
structure Complaint where
  kind : String
  text : String
deriving DecidableEq

namespace Complaint

/-- Nothing to complain about. -/
def blank : Complaint := ⟨"", ""⟩

/-- A fault of an expression. -/
def ofFault (e : Fault) : Complaint := ⟨e.kind.name, e.message⟩

/-- A fault of the scope editor, or of its buttons. -/
def ofScope (text : String) : Complaint := ⟨"Portée", text⟩

end Complaint

/-- The state of the window. -/
structure Window where
  entry : String
  rows : List Row
  result : String
  complaint : Complaint
  working : Working
  /-- The entry and the rows of the last evaluation. -/
  evaluated : Option (String × List Row)
  simpleEntry : String
  simpleResult : String
  simpleReason : String
  /-- Whether the entry is to get the keyboard the next time the window is drawn. -/
  wantsFocus : Bool
deriving DecidableEq

namespace Window

/-- The rows of a fresh window. -/
def freshRows : Nat := 3

/-- The most rows there may be. -/
def mostRows : Nat := 12

/-- A fresh window, with the keyboard on the entry. -/
def fresh : Window where
  entry := ""
  rows := List.replicate freshRows .blank
  result := ""
  complaint := .blank
  working := .blank
  evaluated := none
  simpleEntry := ""
  simpleResult := "0"
  simpleReason := ""
  wantsFocus := true

/-! ## Clearing -/

/-- Empties the entry. -/
def clearEntry (w : Window) : Window := { w with entry := "", wantsFocus := true }

/-- Empties everything that an evaluation fills, and forgets its input. -/
def clearResults (w : Window) : Window :=
  { w with
    result := ""
    complaint := .blank
    working := .blank
    evaluated := none
    wantsFocus := true }

/-! ## Typing by button -/

/-- Whether an entry ends in something that a word would run into, blanks aside: a letter, a digit,
an underscore or a closing parenthesis. -/
def endsInOperand (entry : String) : Bool :=
  (entry.toList.reverse.find? (!Text.isBlank ·)).any fun c => Token.isNamePart c || c == ')'

/-- Adds a word to the entry, and a `*` before it where it would follow an operand. -/
def insertWord (w : Window) (word : String) : Window :=
  { w with
    entry := (if endsInOperand w.entry then w.entry ++ "*" else w.entry) ++ word
    wantsFocus := true }

/-- Adds the beginning of a call to the entry. -/
def insertCall (w : Window) (name : String) : Window :=
  let w := w.insertWord name
  { w with entry := w.entry ++ "(" }

/-! ## Results -/

/-- Shows a complaint; the result stays. -/
def complain (w : Window) (c : Complaint) : Window := { w with complaint := c, working := .blank }

/-- Shows a result. -/
def showResult (w : Window) (v : Float) (working : Working) : Window :=
  { w with complaint := .blank, result := Number.text v, working := working }

/-- Shows a value of the simple field, and why it is zero if it is for a reason. -/
def showSimple (w : Window) (v : Float) (reason : String) : Window :=
  { w with simpleResult := Number.text v, simpleReason := reason }

/-- What an evaluation would work on. -/
def input (w : Window) : String × List Row := (w.entry, w.rows)

/-- Whether the input has changed since the last evaluation. -/
def isStale (w : Window) : Bool := w.evaluated != some w.input

/-- Takes the input as evaluated. -/
def remember (w : Window) : Window := { w with evaluated := some w.input }

/-- Evaluates the entry in the scope of the rows and shows what comes of it. The scope is read anew,
and the order in which it is gone through is a new one each time. -/
def evaluate (w : Window) (order : Scope.Order := .byName) : Window :=
  match Row.scopeOf w.rows order with
  | .error e => w.complain (.ofScope e.message)
  | .ok scope =>
    match analyse w.entry scope with
    | .ok a => w.showResult a.value (.ofAnalysis a)
    | .error e => w.complain (.ofFault e)

/-- Evaluates the input unless it has just been evaluated. -/
def refresh (w : Window) (order : Scope.Order := .byName) : Window :=
  if w.isStale then w.remember.evaluate order else w

/-- Why the simple field shows zero. -/
def reason : Simple.Outcome → String
  | .value _ => ""
  | .blank => "vide → 0"
  | .foreign => "caractères non autorisés → 0"
  | .unbalanced => "parenthèses déséquilibrées → 0"
  | .nonFinite => "résultat non fini → 0"
  | .malformed => "expression mal formée → 0"

/-- Evaluates the simple field. -/
def refreshSimple (w : Window) : Window :=
  let outcome := Simple.outcome w.simpleEntry
  w.showSimple outcome.kept (reason outcome)

/-- Changes the text of the simple field, which evaluates it. -/
def editSimple (w : Window) (text : String) : Window :=
  { w with simpleEntry := text }.refreshSimple

/-! ## Rows -/

/-- Whether another row may be added. -/
def hasRoom (w : Window) : Bool := w.rows.length < mostRows

/-- Adds a blank row, if there is room for it. -/
def addRow (w : Window) : Window := if w.hasRoom then { w with rows := w.rows ++ [.blank] } else w

/-- Removes a row, if there is one of that index. -/
def removeRow (w : Window) (i : Nat) : Window := { w with rows := w.rows.eraseIdx i }

/-- Changes a row, if there is one of that index. -/
def setRow (w : Window) (i : Nat) (row : Row) : Window := { w with rows := w.rows.set i row }

end Window

end Reckon
