import Reckon.Listing

/-!
# From tokens to a listing

Tokens are read from left to right. Numbers and names go to the listing at once; operators and open
parentheses wait on a stack until what follows decides how far they reach. `Reading` is the state
between two tokens, `read` the effect of one token, and `ofTokens` the listing of all.

Three rules keep the language small. An operand takes at most one sign. Nothing is multiplied
without a `*`, so an operand never follows a value. And the name of a function is always followed
by its parenthesis, which is why `read` looks one token ahead.
-/

namespace Reckon

/-- What waits for its operands: an operator, or an open parenthesis. A parenthesis that opens a
call remembers the function and how many of its arguments have begun. -/
inductive Pending
  | op (op : Operator)
  | group
  | call (f : Builtin) (begun : Nat)
deriving DecidableEq

/-- What the last token was, as far as the next one depends on it. -/
inductive Last
  /-- The start of the text, an open parenthesis, a comma or a binary operator. -/
  | opening
  /-- A sign before an operand. -/
  | sign
  /-- The name of a function that is about to be called. -/
  | callee (f : Builtin)
  /-- The end of a value. -/
  | value
deriving DecidableEq

/-- The state between two tokens: what is listed already, the latest item first; what is pending,
the innermost first; and what the last token was. -/
structure Reading where
  listed : List Item
  pending : List Pending
  last : Last
deriving DecidableEq

namespace Reading

/-- Before the first token. -/
def start : Reading := ⟨[], [], .opening⟩

/-- Lists the operators on top of the pending ones as long as they are due. -/
def release (due : Operator → Bool) : List Pending → List Item → List Pending × List Item
  | .op o :: pending, listed =>
    if due o then release due pending (.op o :: listed) else (.op o :: pending, listed)
  | pending, listed => (pending, listed)

/-- Lists all operators down to the innermost open parenthesis. -/
def releaseAll (r : Reading) : List Pending × List Item :=
  release (fun _ => true) r.pending r.listed

/-- Refuses a token that starts an operand right after a value. -/
def checkOperand (r : Reading) (t : Token) : Except Fault Unit :=
  if r.last = .value then .error (.unexpectedOperand t) else .ok ()

/-- A number or a name. -/
def readOperand (r : Reading) (i : Item) : Reading :=
  { r with listed := i :: r.listed, last := .value }

/-- A name. Before a parenthesis it must be a function, and elsewhere it must not. -/
def readName (r : Reading) (x : String) (called : Bool) : Except Fault Reading :=
  match Builtin.ofName? x with
  | some f => if called then .ok { r with last := .callee f } else .error (.uncalledFunction x)
  | none => if called then .error (.unknownFunction x) else .ok (r.readOperand (.var x))

/-- An opening parenthesis, of a call if the name of a function stands before it. -/
def readOpening (r : Reading) : Reading :=
  match r.last with
  | .callee f => { r with pending := .call f 1 :: r.pending, last := .opening }
  | _ => { r with pending := .group :: r.pending, last := .opening }

/-- A comma, which ends an argument and begins another. -/
def readComma (r : Reading) : Except Fault Reading :=
  if r.last ≠ .value then .error .missingArgument
  else match r.releaseAll with
    | (.call f n :: pending, listed) => .ok ⟨listed, .call f (n + 1) :: pending, .opening⟩
    | _ => .error .commaOutsideCall

/-- A closing parenthesis, which makes a value of the innermost group or call. -/
def readClosing (r : Reading) : Except Fault Reading :=
  if r.last ≠ .value then
    match r.pending with
    | .group :: _ | .call .. :: _ => .error .emptyParentheses
    | _ => .error .closedEarly
  else match r.releaseAll with
    | (.group :: pending, listed) => .ok ⟨listed, pending, .value⟩
    | (.call f n :: pending, listed) =>
      if f.arity.accepts n then .ok ⟨.call f n :: listed, pending, .value⟩
      else .error (.arity f n)
    | _ => .error .unopenedParenthesis

/-- A sign before an operand; plus leaves no trace. -/
def readSign (r : Reading) (op : BinOp) : Except Fault Reading :=
  if r.last = .sign then .error .repeatedSign
  else .ok { r with
    pending := if op = .sub then .op .neg :: r.pending else r.pending
    last := .sign }

/-- An operator after a value: first the pending operators that precede it are listed. -/
def readBinary (r : Reading) (op : BinOp) : Reading :=
  let (pending, listed) := release (·.precedes (.bin op)) r.pending r.listed
  ⟨listed, .op (.bin op) :: pending, .opening⟩

/-- The effect of one token, given the one after it. -/
def read (r : Reading) (t : Token) (next : Option Token) : Except Fault Reading :=
  match t with
  | .num v => (r.checkOperand t).map fun _ => r.readOperand (.num v)
  | .ident x => (r.checkOperand t).bind fun _ => r.readName x (next = some .lpar)
  | .lpar => (r.checkOperand t).map fun _ => r.readOpening
  | .comma => r.readComma
  | .rpar => r.readClosing
  | .op op =>
    if r.last = .value then .ok (r.readBinary op)
    else if op.isSign then r.readSign op
    else .error (.missingLeftOperand op)

/-- The effect of some tokens in a row. -/
def readAll (r : Reading) : List Token → Except Fault Reading
  | [] => .ok r
  | t :: ts =>
    match r.read t ts.head? with
    | .ok r => r.readAll ts
    | .error e => .error e

/-- Lists what is still pending after the last token, unless a parenthesis is. -/
def close (r : Reading) : Except Fault Listing :=
  match r.releaseAll with
  | ([], listed) => .ok listed.reverse
  | _ => .error .unclosedParenthesis

end Reading

/-- The listing of an expression. -/
def Listing.ofTokens (ts : List Token) : Except Fault Listing := do
  let r ← Reading.start.readAll ts
  if r.last = .value then r.close
  else if ts.isEmpty then .error .noTokens
  else .error .missingLastOperand

end Reckon
