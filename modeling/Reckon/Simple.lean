import Reckon.Analysis

/-!
# Plain arithmetic that always has a value

The simple evaluator takes digits, the four operators, points and parentheses, and nothing else. It
never fails: whatever goes wrong, the value is zero, and the outcome says why. What the text holds
is looked at first, then whether its parentheses match, and only then is it read.
-/

namespace Reckon.Simple

/-- What became of a text. -/
inductive Outcome
  | value (v : Float)
  /-- No character that could be used. -/
  | blank
  /-- Some character that may not be used. -/
  | foreign
  /-- Parentheses that do not match. -/
  | unbalanced
  /-- A value that is infinite or no number. -/
  | nonFinite
  | malformed
deriving DecidableEq

/-- The value that is kept: zero for all outcomes but a value. -/
def Outcome.kept : Outcome → Float
  | value v => v
  | _ => Float.ofBits 0

/-- The characters of plain arithmetic. -/
def isPlain (c : Char) : Bool := c.isDigit || ['+', '-', '*', '/', '.', '(', ')'].contains c

/-- A text without the characters that are not those of plain arithmetic. -/
def plainPart (s : String) : String := String.ofList (s.toList.filter isPlain)

/-- Whether the parentheses of a text match, `depth` being open before it. -/
def balancedFrom (depth : Nat) : List Char → Bool
  | [] => depth == 0
  | '(' :: cs => balancedFrom (depth + 1) cs
  | ')' :: cs => match depth with
    | 0 => false
    | d + 1 => balancedFrom d cs
  | _ :: cs => balancedFrom depth cs

/-- The outcome of a text. -/
def outcome (text : String) : Outcome :=
  let s := Text.compact text
  let kept := plainPart s
  if kept.isEmpty then .blank
  else if kept != s || !kept.toList.all isPlain then .foreign
  else if !balancedFrom 0 kept.toList then .unbalanced
  else match Parsed.ofText kept >>= fun parsed => parsed.tree.checkedValue with
    | .ok v => .value v
    | .error (.nonFiniteResult _) => .nonFinite
    | .error _ => .malformed

/-- The value of a text, zero if it has none. -/
def evaluate (text : String) : Float := (outcome text).kept

end Reckon.Simple
