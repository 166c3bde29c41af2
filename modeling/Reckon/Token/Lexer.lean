import Reckon.Fault
import Reckon.Text.Blank

/-!
# From text to tokens

A text is cut from left to right into lexemes, each as long as possible, with blanks allowed between
any two. `lexeme` cuts one lexeme off a text that does not start with a blank, and `scan` cuts them
all. Only the point needs to know what stood before it: a lone point next to a letter is an access
to a member, which is refused as unsafe, and any other lone point is a slip of the pen.

The main facts about one cut are that nothing is lost (`lexeme_append`) and that something is taken
(`text_ne_nil_of_lexeme`); the second is what makes `scan` end.
-/

namespace Reckon

namespace Token

/-- A letter or an underscore: what a name starts with. -/
def isNameStart (c : Char) : Bool := c.isAlpha || c == '_'

/-- A letter, a digit or an underscore: what a name goes on with. -/
def isNamePart (c : Char) : Bool := c.isAlphanum || c == '_'

/-- The token of a character that is a lexeme by itself. -/
def ofSymbol? : Char → Option Token
  | '(' => some .lpar
  | ')' => some .rpar
  | ',' => some .comma
  | '+' => some (.op .add)
  | '-' => some (.op .sub)
  | '*' => some (.op .mul)
  | '/' => some (.op .div)
  | '^' => some (.op .pow)
  | 'π' => some (.ident "π")
  | '√' => some (.ident "sqrt")
  | _ => none

/-- A token with the characters it was read from, and the characters after them. -/
structure Lexeme where
  token : Token
  text : List Char
  rest : List Char

/-- The point and the digits that a number goes on with after its first digits. -/
def splitFraction : List Char → List Char × List Char
  | '.' :: cs => ('.' :: cs.takeWhile Char.isDigit, cs.dropWhile Char.isDigit)
  | cs => ([], cs)

/-- Cuts a number off the front of a text. `before` is the character that stands before it. -/
def number (before : Option Char) (cs : List Char) : Except Fault Lexeme :=
  let whole := cs.takeWhile Char.isDigit
  let (part, rest) := splitFraction (cs.dropWhile Char.isDigit)
  if whole ++ part = ['.'] then
    if rest.head?.any isNameStart || before.any isNameStart then .error .memberAccess
    else .error .strayPoint
  else if rest.head? = some '.' then .error (.malformedNumber (String.ofList (whole ++ part)))
  else .ok ⟨.num (Number.ofDecimal false (.ofDigits whole part.tail)), whole ++ part, rest⟩

/-- Cuts a lexeme off a text that starts with `c`, which is no blank. -/
def lexeme (before : Option Char) (c : Char) (cs : List Char) : Except Fault Lexeme :=
  match ofSymbol? c with
  | some t => .ok ⟨t, [c], cs⟩
  | none =>
    if isNameStart c then
      let name := c :: cs.takeWhile isNamePart
      .ok ⟨.ident (String.ofList name), name, cs.dropWhile isNamePart⟩
    else if c.isDigit || c = '.' then number before (c :: cs)
    else .error (.unexpectedCharacter c)

/-! ## A cut loses nothing and takes something -/

theorem splitFraction_append (cs : List Char) :
    (splitFraction cs).1 ++ (splitFraction cs).2 = cs := by
  unfold splitFraction
  split <;> simp

theorem number_append {before : Option Char} {cs : List Char} {l : Lexeme}
    (h : number before cs = .ok l) : l.text ++ l.rest = cs := by
  unfold number at h
  simp only at h
  split at h
  · split at h <;> simp at h
  · split at h
    · simp at h
    · cases h
      simp only [List.append_assoc, splitFraction_append, List.takeWhile_append_dropWhile]

theorem lexeme_append {before : Option Char} {c : Char} {cs : List Char} {l : Lexeme}
    (h : lexeme before c cs = .ok l) : l.text ++ l.rest = c :: cs := by
  unfold lexeme at h
  split at h
  · cases h; rfl
  · split at h
    · cases h; simp
    · split at h
      · exact number_append h
      · simp at h

theorem number_ne_nil {before : Option Char} {c : Char} {cs : List Char} {l : Lexeme}
    (hc : c.isDigit || c = '.') (h : number before (c :: cs) = .ok l) : l.text ≠ [] := by
  unfold number at h
  simp only at h
  split at h
  · split at h <;> simp at h
  · split at h
    · simp at h
    · cases h
      by_cases hd : c.isDigit
      · simp [hd]
      · have : c = '.' := by simpa [hd] using hc
        subst this
        simp [splitFraction]

theorem text_ne_nil_of_lexeme {before : Option Char} {c : Char} {cs : List Char} {l : Lexeme}
    (h : lexeme before c cs = .ok l) : l.text ≠ [] := by
  unfold lexeme at h
  split at h
  · cases h; simp
  · split at h
    · cases h; simp
    · split at h
      · exact number_ne_nil ‹_› h
      · simp at h

theorem length_rest_lt {before : Option Char} {c : Char} {cs : List Char} {l : Lexeme}
    (h : lexeme before c cs = .ok l) : l.rest.length < (c :: cs).length := by
  have := List.length_pos_iff.2 (text_ne_nil_of_lexeme h)
  rw [← lexeme_append h, List.length_append]
  omega

/-! ## The whole text -/

/-- Cuts a text into tokens and adds them to those found so far, the latest first. `before` is the
character that stands before the text. -/
def scanFrom (before : Option Char) (found : List Token) : List Char → Except Fault (List Token)
  | [] => .ok found.reverse
  | c :: cs =>
    if Text.isBlank c then scanFrom (some c) found cs
    else match _h : lexeme before c cs with
      | .error e => .error e
      | .ok l => scanFrom l.text.getLast? (l.token :: found) l.rest
termination_by cs => cs.length
decreasing_by
  · simp
  · exact length_rest_lt ‹_›

/-- The tokens of a text. -/
def scan (s : String) : Except Fault (List Token) := scanFrom none [] s.toList

end Token

end Reckon
