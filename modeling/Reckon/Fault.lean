import Reckon.Builtin
import Reckon.Token

/-!
# Why an expression has no value

One constructor per cause. `kind` sorts the causes into the four classes that a caller tells apart,
and `message` is the only place where a cause is put into words.
-/

namespace Reckon

/-- The classes of faults. -/
inductive Fault.Kind
  /-- The text is blank, or the scope is not usable. -/
  | invalidExpression
  /-- Something that is no arithmetic: a foreign character, an unknown name. -/
  | unsafeExpression
  /-- The computation ended outside the finite numbers. -/
  | invalidResult
  /-- Everything else: the expression is not well formed. -/
  | evaluationError
deriving DecidableEq, Repr

/-- A cause for an expression to have no value. -/
inductive Fault
  /-- Nothing but blanks. -/
  | blankText
  /-- A variable stands for something that is not a finite number. -/
  | nonFiniteBinding (name : String) (value : Float)
  /-- A point between names, as in an access to a member. -/
  | memberAccess
  | unexpectedCharacter (c : Char)
  | unknownFunction (name : String)
  /-- A name that neither the scope nor the constants give a value. -/
  | unboundName (name : String)
  /-- The value is infinite or no number. -/
  | nonFiniteResult (value : Float)
  /-- A point without digits. -/
  | strayPoint
  /-- A number with a second point behind it. -/
  | malformedNumber (text : String)
  /-- A token that starts an operand where an operator is due. -/
  | unexpectedOperand (token : Token)
  /-- The name of a function without a call. -/
  | uncalledFunction (name : String)
  | missingArgument
  | commaOutsideCall
  | emptyParentheses
  /-- A closing parenthesis where an operand is due. -/
  | closedEarly
  /-- A closing parenthesis that closes nothing. -/
  | unopenedParenthesis
  | repeatedSign
  /-- A binary operator where an operand is due. -/
  | missingLeftOperand (op : BinOp)
  | noTokens
  /-- The text ends where an operand is due. -/
  | missingLastOperand
  | unclosedParenthesis
  /-- An operator of a listing finds too few values. -/
  | missingOperand
  /-- A call of a listing finds too few values. -/
  | missingArguments (f : Builtin)
  /-- A listing leaves no value, or more than one. -/
  | notOneValue
  /-- A function is given a number of arguments that it does not accept. -/
  | arity (f : Builtin) (count : Nat)
deriving DecidableEq

namespace Fault

/-- The class of a cause. -/
def kind : Fault → Kind
  | blankText | nonFiniteBinding .. => .invalidExpression
  | memberAccess | unexpectedCharacter _ | unknownFunction _ | unboundName _ => .unsafeExpression
  | nonFiniteResult _ => .invalidResult
  | _ => .evaluationError

/-- The name of a class. -/
def Kind.name : Kind → String
  | invalidExpression => "InvalidExpression"
  | unsafeExpression => "UnsafeExpression"
  | invalidResult => "InvalidResult"
  | evaluationError => "EvaluationError"

/-- The words that a message of a class begins with. -/
def Kind.heading : Kind → String
  | invalidExpression => "invalid expression: "
  | unsafeExpression => "unsafe characters in expression: "
  | invalidResult => "result is not a valid number: "
  | evaluationError => "expression evaluation error: "

/-- What is wrong, without the class. -/
def detail : Fault → String
  | blankText => "expression is empty"
  | nonFiniteBinding x v => s!"variable '{x}' is bound to a non-finite value ({Number.text v})"
  | memberAccess => "accès par point '.'"
  | unexpectedCharacter c => s!"caractère inattendu '{c}'"
  | unknownFunction f => s!"fonction inconnue '{f}'"
  | unboundName x => s!"identifiant inconnu '{x}'"
  | nonFiniteResult v => Number.text v
  | strayPoint => "point décimal isolé"
  | malformedNumber s => s!"nombre invalide: {s}."
  | unexpectedOperand t =>
    s!"'{t.text}' inattendu après une valeur (multiplication implicite non supportée)"
  | uncalledFunction f => s!"la fonction '{f}' exige des parenthèses"
  | missingArgument => "argument manquant avant ','"
  | commaOutsideCall => "',' hors d’un appel de fonction"
  | emptyParentheses => "parenthèses vides"
  | closedEarly => "opérande manquant avant ')'"
  | unopenedParenthesis => "parenthèse fermante sans ouvrante"
  | repeatedSign => "signes consécutifs"
  | missingLeftOperand op => s!"opérateur '{op.symbol}' sans opérande gauche"
  | noTokens => "expression vide"
  | missingLastOperand => "expression incomplète (opérande manquant en fin)"
  | unclosedParenthesis => "parenthèses non fermées"
  | missingOperand => "expression invalide (opérande manquant)"
  | missingArguments f => s!"{f.name} : arguments manquants"
  | notOneValue => "expression invalide"
  | arity f n => s!"{f.name} expects {f.arity.text}, got {n}"

/-- The full text of a fault. -/
def message (e : Fault) : String := e.kind.heading ++ e.detail

end Fault

end Reckon
