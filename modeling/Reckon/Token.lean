import Reckon.Number.Binary
import Reckon.Operator

/-!
# Tokens

What an expression is made of once its blanks and spellings are gone: numbers, names, the five
operator symbols and the three marks of grouping.
-/

namespace Reckon

/-- A token of an expression. -/
inductive Token
  | num (value : Float)
  | ident (name : String)
  | op (op : BinOp)
  | lpar
  | rpar
  | comma
deriving DecidableEq

namespace Token

/-- The text of a token; a number is written with the fewest digits that read back. -/
def text : Token → String
  | num v => Number.text v
  | ident x => x
  | op o => o.symbol
  | lpar => "("
  | rpar => ")"
  | comma => ","

/-- The texts of some tokens, with a space between any two. -/
def line (ts : List Token) : String := " ".intercalate (ts.map text)

/-- Whether the token can be a sign. -/
def isSign : Token → Bool
  | op o => o.isSign
  | _ => false

end Token

end Reckon
