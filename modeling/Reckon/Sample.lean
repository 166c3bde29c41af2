/-!
# Sample expressions

Expressions drawn from a seed. The draws come from a linear congruential generator of 64 bits, of
which the upper half is used; every sample is determined by the state it starts from. `plain` and
`full` are well formed by construction, the first in plain arithmetic and the second with names and
calls; `noise` is a row of characters of any kind.
-/

namespace Reckon.Sample

/-- A draw, which moves the state of the generator on. -/
abbrev Draw (α : Type) := StateM UInt64 α

/-- The next number of 32 bits. -/
def next : Draw UInt32 := fun state =>
  let state := state * 6364136223846793005 + 1442695040888963407
  ((state >>> 32).toUInt32, state)

/-- A number below `n`; zero if there is none, and then nothing is drawn. -/
def below (n : UInt32) : Draw Nat :=
  if n = 0 then return 0 else return ((← next) % n).toNat

/-- A toss of a coin. -/
def coin : Draw Bool := return (← next) &&& 1 == 1

/-- One of some texts. -/
def oneOf (texts : List String) : Draw String :=
  return texts.getD (← below (UInt32.ofNat texts.length)) ""

def numbers : List String := ["0", "1", "2", "3", "7", "10", "2.5", ".5", "0.125"]

def operators : List String := ["+", "-", "*", "/"]

def functions : List String := ["sqrt", "sin", "cos", "tan", "log", "ln", "abs", "exp"]

/-- A number. -/
def number : Draw String := oneOf numbers

/-- A number, sometimes with a minus. -/
def signedNumber : Draw String := do
  let n ← number
  if (← below 5) = 0 then return "-" ++ n else return n

/-- Whether to stop above the depth that is left. -/
def stops : Draw Bool := return (← below 4) = 0

/-- An expression of plain arithmetic, at most `depth` operators deep. -/
def plain : Nat → Draw String
  | 0 => signedNumber
  | depth + 1 => do
    if ← stops then signedNumber
    else
      let k ← below 6
      if k = 0 then return "(" ++ (← plain depth) ++ ")"
      else if k = 1 then return "-(" ++ (← plain depth) ++ ")"
      else
        let op := operators.getD (k - 2) ""
        let a ← plain depth
        let b ← plain depth
        if ← coin then return a ++ op ++ b else return a ++ " " ++ op ++ " " ++ b

/-- A number, a constant, or one of the variables `x` and `y`. -/
def leaf : Draw String := do
  let k ← below 6
  if k < 4 then return ["pi", "e", "x", "y"].getD k "" else number

/-- An expression with calls and names, at most `depth` operators deep. -/
def full : Nat → Draw String
  | 0 => leaf
  | depth + 1 => do
    if ← stops then leaf
    else
      let a ← full depth
      let k ← below 8
      if k = 0 then return (← oneOf functions) ++ "(" ++ a ++ ")"
      else if k = 1 then return "pow(" ++ a ++ "," ++ (← full depth) ++ ")"
      else if k = 2 then
        let b ← leaf
        let c ← leaf
        return "max(" ++ a ++ "," ++ b ++ "," ++ c ++ ")"
      else if k = 3 then return "(" ++ a ++ ")^" ++ (← number)
      else return a ++ operators.getD (k - 4) "" ++ (← full depth)

/-- The characters of noise. -/
def alphabet : List Char := [
  '0', '1', '9', '.', '+', '-', '*', '/', '^', '(', ')', ',', ' ', 'a', 'x', 's', 'q', 'r', 't',
  'p', 'i', 'e', 'π', '√', ';', '=', '"', '$', '[', '_']

/-- So many characters, drawn one by one. -/
def characters : Nat → Draw (List Char)
  | 0 => return []
  | n + 1 => do
    let c := alphabet.getD (← below (UInt32.ofNat alphabet.length)) ' '
    return c :: (← characters n)

/-- Fewer than two dozen characters of any kind. -/
def noise : Draw String := do
  let n ← below 24
  return String.ofList (← characters n)

end Reckon.Sample
