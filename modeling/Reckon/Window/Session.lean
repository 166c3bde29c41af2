import Reckon.Window.View

/-!
# A session

The window as a person uses it, with the keyboard on one field at a time and with parts folded. The
entry is evaluated by Enter and by a click outside the fields while it has the keyboard; going from
it straight to another field does not evaluate it. The simple field is evaluated by every edit,
also by one that changes nothing.
-/

namespace Reckon

/-- A field that can have the keyboard. -/
inductive Field
  | entry
  | simple
  | name (row : Nat)
  | value (row : Nat)
deriving DecidableEq

/-- What can be clicked outside the fields. -/
inductive Target
  | button (b : Button)
  | remove (row : Nat)
  | scopeHeader
  | workingHeader
  /-- A text that does nothing. -/
  | label
deriving DecidableEq

/-- The window with its keyboard and its folded parts. -/
structure Session where
  window : Window
  focus : Option Field
  folding : Folding

namespace Session

/-- Gives the keyboard to the entry if the window wants it there. -/
def grant (s : Session) : Session :=
  if s.window.wantsFocus then { s with window := s.window.granted, focus := some .entry } else s

/-- A fresh session. -/
def start : Session := grant ⟨.fresh, none, .initial⟩

/-- The content of a field. -/
def content (w : Window) : Field → String
  | .entry => w.entry
  | .simple => w.simpleEntry
  | .name i => (w.rows[i]?.map Row.name).getD ""
  | .value i => (w.rows[i]?.map Row.value).getD ""

/-- The window with another content of a field. -/
def edit (w : Window) (text : String) : Field → Window
  | .entry => { w with entry := text }
  | .simple => w.editSimple text
  | .name i => { w with rows := w.rows.modify i fun row => { row with name := text } }
  | .value i => { w with rows := w.rows.modify i fun row => { row with value := text } }

/-- Whether the entry has the keyboard. -/
def onEntry (s : Session) : Bool := s.focus = some .entry

/-- A click outside the fields. -/
def click (s : Session) (t : Target) (order : Scope.Order := .byName) : Session :=
  let left := if s.onEntry then s.window.refresh order else s.window
  grant <| match t with
    | .button b => { s with window := s.window.press b s.onEntry order, focus := none }
    | .remove i => { s with window := left.removeRow i, focus := none }
    | .scopeHeader => { s with
        window := left
        focus := none
        folding := { s.folding with scopeOpen := !s.folding.scopeOpen } }
    | .workingHeader => { s with
        window := left
        focus := none
        folding := { s.folding with workingOpen := !s.folding.workingOpen } }
    | .label => { s with window := left, focus := none }

/-- A click in a field. -/
def goTo (s : Session) (f : Field) : Session := { s with focus := some f }

/-- Goes to a field and replaces its content. -/
def write (s : Session) (f : Field) (text : String) : Session :=
  { s with window := edit s.window (Window.oneLine text) f, focus := some f }

/-- Types at the end of the field that has the keyboard. Typing nothing is no edit. -/
def type (s : Session) (text : String) : Session :=
  match s.focus with
  | some f =>
    if text.isEmpty then s
    else { s with window := edit s.window (content s.window f ++ text) f }
  | none => s

/-- Takes the last character off the field that has the keyboard. -/
def backspace (s : Session) : Session :=
  match s.focus with
  | some f =>
    { s with window := edit s.window (String.ofList (content s.window f).toList.dropLast) f }
  | none => s

/-- Enter, which leaves the field. -/
def enter (s : Session) (order : Scope.Order := .byName) : Session :=
  { s with window := if s.onEntry then s.window.refresh order else s.window, focus := none }

/-- Escape, which empties the entry and goes there. -/
def escape (s : Session) : Session := grant { s with window := s.window.clearEntry }

/-- All texts that show. -/
def texts (s : Session) : List String := s.window.texts s.folding

end Session

end Reckon
