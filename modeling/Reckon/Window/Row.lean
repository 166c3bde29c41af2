import Reckon.Number.Numeral
import Reckon.Scope
import Reckon.Text.Quoted
import Reckon.Token.Lexer

/-!
# The rows of the scope editor

A scope is typed in as rows of a name and a value. Blanks around either do not count, and a row of
two blank fields is no row at all. Names are those of expressions, and each may be given once.
-/

namespace Reckon

/-- A row of the scope editor, as typed. -/
structure Row where
  name : String
  value : String
deriving DecidableEq

/-- Why some rows make no scope. The texts are those of the fields without the blanks around. -/
inductive RowFault
  | badName (name : String)
  | badValue (name value : String)
  | repeatedName (name : String)
deriving DecidableEq

/-- What is wrong, in words. -/
def RowFault.message : RowFault → String
  | badName x => s!"nom de variable invalide: {Text.quoted x}"
  | badValue x v => s!"valeur invalide pour '{x}': {Text.quoted v}"
  | repeatedName x => s!"variable '{x}' définie deux fois"

namespace Row

/-- A row with nothing in it. -/
def blank : Row := ⟨"", ""⟩

/-- Whether a text can be the name of a variable. -/
def isName (s : String) : Bool :=
  match s.toList with
  | [] => false
  | c :: cs => Token.isNameStart c && cs.all Token.isNamePart

/-- Adds a row to the scope of the rows above it. -/
def addTo (scope : Scope) (row : Row) : Except RowFault Scope :=
  let name := Text.trim row.name
  let value := Text.trim row.value
  if name.isEmpty && value.isEmpty then .ok scope
  else if !isName name then .error (.badName name)
  else match Number.ofText? value with
    | none => .error (.badValue name value)
    | some v =>
      if (scope.find? name).isSome then .error (.repeatedName name)
      else .ok (scope.insert name v)

/-- The scope of some rows, read from the top, to be gone through in some order. -/
def scopeOf (rows : List Row) (order : Scope.Order := .byName) : Except RowFault Scope :=
  rows.foldlM addTo (Scope.empty.inOrder order)

/-! ## What the order is for -/

/-- A row says the same in any order of the scope. -/
theorem addTo_inOrder (scope : Scope) (order : Scope.Order) (row : Row) :
    addTo (scope.inOrder order) row = (addTo scope row).map (·.inOrder order) := by
  unfold addTo
  dsimp only
  split
  · rfl
  · split
    · rfl
    · split
      · rfl
      · rw [apply_ite (Except.map _)]
        rfl

/-- The order is that of the scope and nothing else. -/
theorem scopeOf_eq_map (rows : List Row) (order : Scope.Order) :
    scopeOf rows order = (scopeOf rows).map (·.inOrder order) := by
  have hfold : ∀ scope : Scope, rows.foldlM addTo (scope.inOrder order)
      = (rows.foldlM addTo scope).map (·.inOrder order) := by
    induction rows with
    | nil => exact fun _ => rfl
    | cons row rows ih =>
        intro scope
        rw [List.foldlM_cons, List.foldlM_cons, addTo_inOrder]
        cases addTo scope row with
        | error e => rfl
        | ok scope => exact ih scope
  exact hfold (Scope.empty.inOrder .byName)

end Row

end Reckon
