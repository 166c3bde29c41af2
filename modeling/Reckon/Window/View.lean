import Reckon.Window.Gesture

/-!
# What the window shows

The texts of the window from top to bottom. A field without content shows a hint in its place, and
nothing else shows as an empty text. The scope editor and the working can be folded; a folded part
shows its header only.
-/

namespace Reckon

/-- What the window asks of the desktop. -/
structure Viewport where
  title : String
  size : Nat × Nat
  leastSize : Nat × Nat

/-- The window of the program. -/
def Viewport.main : Viewport where
  title := "calcul_sur — saisie numérique"
  size := (520, 740)
  leastSize := (420, 560)

/-- Which of the two parts that can be folded are open. -/
structure Folding where
  scopeOpen : Bool
  workingOpen : Bool
deriving DecidableEq

namespace Folding

/-- At the start the scope editor is open and the working folded. -/
def initial : Folding := ⟨true, false⟩

/-- Nothing folded. -/
def allOpen : Folding := ⟨true, true⟩

end Folding

namespace Window

/-- The header of the scope editor. -/
def scopeHeader : String := "Portée (variables)"

/-- The header of the working. -/
def workingHeader : String := "Démarche"

/-- What the button that removes a row says. -/
def removeLabel : String := "−"

/-- The content of a field, or its hint. -/
def orHint (content hint : String) : String := if content.isEmpty then hint else content

/-- The texts of the full field. -/
def entryTexts (w : Window) : List String :=
  ["Évaluateur complet", "Expression :", orHint w.entry "Ex: a*b+c, sqrt(3^2+4^2), 2*pi*r"]
    ++ (Button.actions ++ Button.words).map Button.label

/-- The texts of a row of the scope editor. -/
def rowTexts (row : Row) : List String :=
  [orHint row.name "nom", orHint row.value "valeur", removeLabel]

/-- The texts of the scope editor. -/
def scopeTexts (w : Window) (isOpen : Bool) : List String :=
  scopeHeader ::
    if isOpen then w.rows.flatMap rowTexts ++ [Button.addRow.label] else []

/-- The texts of the result and of the complaint. -/
def resultTexts (w : Window) : List String :=
  ["Résultat :", w.result]
    ++ if w.complaint.text.isEmpty then []
      else [w.complaint.kind ++ " — " ++ w.complaint.text]

/-- The texts of the working. -/
def workingTexts (w : Window) (isOpen : Bool) : List String :=
  workingHeader ::
    if isOpen then
      ["Jetons :", w.working.tokens, "RPN :", w.working.listing, "Avant :", w.working.parsed,
        "Après :", w.working.bound]
    else []

/-- The texts of the simple field. -/
def simpleTexts (w : Window) : List String :=
  ["Évaluateur simple", "Quantité (chiffres, + - * / . ( ) seulement) :",
    orHint w.simpleEntry "Ex: 2+3*4", w.simpleResult, w.simpleReason]

/-- All texts that show, from top to bottom. -/
def texts (w : Window) (folding : Folding) : List String :=
  (w.entryTexts ++ w.scopeTexts folding.scopeOpen ++ w.resultTexts
    ++ w.workingTexts folding.workingOpen ++ w.simpleTexts).filter (!·.isEmpty)

end Window

end Reckon
