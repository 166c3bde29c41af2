import Reckon.Analysis
import Reckon.Proofs.Number.Bits

/-!
# The tokens of a displayed tree

The text of a tree is cut into the tokens that one expects: `tokensAt` puts the same signs,
operators and parentheses around tokens that `textAt` puts around texts, and `scan_render` says that
the lexer finds exactly these.

A piece of text is cut as expected wherever it stands, as long as what comes after it does not run
on into it (`Apart`). Since a name or a number is always followed by a symbol, and no symbol runs on
into anything, the pieces can be put together one after the other. The character before a piece
matters only to a point without digits, which is never written, so `Cuts` leaves it open.
-/

namespace Reckon

namespace Token

/-- Whether a text is cut into one name token: a letter or an underscore and what a name goes on
with, or the sign for the number pi. -/
def IsName (x : String) : Prop :=
  x = "π" ∨ ∃ c cs, x = String.ofList (c :: cs) ∧ isNameStart c = true
    ∧ ∀ d ∈ cs, isNamePart d = true

/-- The tokens of the text of a number: its sign if it has one, and its magnitude. Infinity is
written as a word, and so it is a name. -/
def ofNumber (v : Float) : List Token :=
  if v.isFinite then
    if Number.isSigned v then [.op .sub, .num v.abs] else [.num v.abs]
  else [.ident (Number.text v)]

/-- Puts tokens between parentheses if asked to. -/
def enclose (needed : Bool) (ts : List Token) : List Token :=
  if needed then .lpar :: (ts ++ [.rpar]) else ts

end Token

namespace Expr

mutual

/-- The tokens of the text of a tree at a place that asks for a least tightness. -/
def tokensAt (least : Nat) : Expr → List Token
  | num v => Token.enclose ((num v).tightness < least) (Token.ofNumber v)
  | var x => Token.enclose ((var x).tightness < least) [.ident x]
  | neg e => Token.enclose ((neg e).tightness < least) (.op .sub :: e.tokensAt signedTightness)
  | bin op a b => Token.enclose ((bin op a b).tightness < least)
      (a.tokensAt (leftTightness op) ++ .op op :: b.tokensAt (rightTightness op))
  | call f args => Token.enclose ((call f args).tightness < least)
      (.ident f.name :: .lpar :: (tokensOfAll [] args ++ [.rpar]))

/-- The tokens of some arguments, each after a separator, which is a comma for all but the first. -/
def tokensOfAll (separator : List Token) : List Expr → List Token
  | [] => []
  | a :: args => separator ++ a.tokensAt 0 ++ tokensOfAll [.comma] args

end

/-- A tree that could have been read: its names are names of the lexer and no functions, its calls
have numbers of arguments that the functions accept, and its literals are as asked for. -/
inductive Readable (literal : Float → Prop) : Expr → Prop
  | num {v : Float} (hv : literal v) : Readable literal (num v)
  | var {x : String} (spelled : Token.IsName x) (free : Builtin.ofName? x = none) :
      Readable literal (var x)
  | neg {e : Expr} (he : Readable literal e) : Readable literal (neg e)
  | bin {op : BinOp} {a b : Expr} (ha : Readable literal a) (hb : Readable literal b) :
      Readable literal (bin op a b)
  | call {f : Builtin} {args : List Expr} (accepted : f.arity.accepts args.length)
      (hargs : ∀ a ∈ args, Readable literal a) : Readable literal (call f args)

theorem Readable.mono {p q : Float → Prop} (h : ∀ v, p v → q v) {e : Expr} (he : e.Readable p) :
    e.Readable q := by
  induction he with
  | num hv => exact .num (h _ hv)
  | var spelled free => exact .var spelled free
  | neg _ ih => exact .neg ih
  | bin _ _ iha ihb => exact .bin iha ihb
  | call accepted _ ih => exact .call accepted ih

end Expr

namespace Token

/-! ## Cutting a piece of text -/

/-- What follows does not run on into a name or a number before it. -/
def Apart (rest : List Char) : Prop :=
  ∀ c ∈ rest.head?, isNamePart c = false ∧ c.isDigit = false ∧ c ≠ '.'

/-- A text without its blanks is cut into some tokens, wherever it stands. -/
def Cuts (s : String) (ts : List Token) : Prop :=
  ∀ (before : Option Char) (found : List Token) (rest : List Char), Apart rest →
    ∃ before', scanFrom before found ((Text.compact s).toList ++ rest)
      = scanFrom before' (ts.reverse ++ found) rest

theorem apart_nil : Apart [] := by intro c hc; simp at hc

theorem apart_of_symbol {c : Char} {t : Token} (h : ofSymbol? c = some t) (rest : List Char) :
    Apart (c :: rest) := by
  intro d hd
  obtain rfl : c = d := by simpa using hd
  unfold ofSymbol? at h
  split at h
  all_goals first | decide | cases h

theorem isBlank_of_symbol {c : Char} {t : Token} (h : ofSymbol? c = some t) :
    Text.isBlank c = false := by
  unfold ofSymbol? at h
  split at h
  all_goals first | decide | cases h

theorem scanFrom_cons {before : Option Char} {found : List Token} {c : Char} {cs : List Char}
    {l : Lexeme} (hc : Text.isBlank c = false) (hl : lexeme before c cs = .ok l) :
    scanFrom before found (c :: cs) = scanFrom l.text.getLast? (l.token :: found) l.rest := by
  rw [scanFrom, if_neg (by simp [hc])]
  split
  · rename_i e he
    rw [hl] at he
    cases he
  · rename_i l' hl'
    rw [hl] at hl'
    cases hl'
    rfl

theorem scanFrom_symbol {c : Char} {t : Token} (h : ofSymbol? c = some t) (before : Option Char)
    (found : List Token) (rest : List Char) :
    scanFrom before found (c :: rest) = scanFrom (some c) (t :: found) rest := by
  have hl : lexeme before c rest = .ok ⟨t, [c], rest⟩ := by
    unfold lexeme
    simp only [h]
  exact scanFrom_cons (isBlank_of_symbol h) hl

theorem cuts_nil : Cuts "" [] := fun before _ _ _ => ⟨before, rfl⟩

/-- The lexer finds the tokens of a piece that stands by itself. -/
theorem Cuts.scan {s : String} {ts : List Token} (h : Cuts s ts) :
    Token.scan (Text.compact s) = .ok ts := by
  obtain ⟨before, hcut⟩ := h none [] [] apart_nil
  rw [List.append_nil, List.append_nil] at hcut
  rw [Token.scan, hcut, scanFrom, List.reverse_reverse]

/-- Two pieces with a symbol between them, which may have blanks around it. -/
theorem Cuts.join {s m r : String} {ts us : List Token} {c : Char} {t : Token}
    (hs : Cuts s ts) (hm : (Text.compact m).toList = [c]) (hc : ofSymbol? c = some t)
    (hr : Cuts r us) : Cuts (s ++ m ++ r) (ts ++ t :: us) := by
  intro before found rest hrest
  obtain ⟨b₁, h₁⟩ := hs before found (c :: ((Text.compact r).toList ++ rest))
    (apart_of_symbol hc _)
  obtain ⟨b₂, h₂⟩ := hr (some c) (t :: (ts.reverse ++ found)) rest hrest
  refine ⟨b₂, ?_⟩
  rw [Text.toList_compact] at hm
  simp only [Text.toList_compact, String.toList_append, List.filter_append, List.append_assoc, hm,
    List.cons_append, List.nil_append] at h₁ h₂ ⊢
  rw [h₁, scanFrom_symbol hc, h₂]
  simp

theorem Cuts.behind {m r : String} {us : List Token} {c : Char} {t : Token}
    (hm : (Text.compact m).toList = [c]) (hc : ofSymbol? c = some t) (hr : Cuts r us) :
    Cuts (m ++ r) (t :: us) := by
  have := cuts_nil.join hm hc hr
  rwa [String.empty_append, List.nil_append] at this

theorem Cuts.enclose {s : String} {ts : List Token} (h : Cuts s ts) (needed : Bool) :
    Cuts (Expr.enclose needed s) (enclose needed ts) := by
  cases needed with
  | false => exact h
  | true =>
      have hclosed := (h.join (m := ")") rfl rfl cuts_nil).behind (m := "(") rfl rfl
      rwa [String.append_empty, ← String.append_assoc] at hclosed

/-! ## Names -/

theorem isNamePart_of_isNameStart {c : Char} (h : isNameStart c = true) : isNamePart c = true := by
  rcases Bool.or_eq_true_iff.mp h with h | h
  · exact Bool.or_eq_true_iff.mpr (.inl (Bool.or_eq_true_iff.mpr (.inl h)))
  · exact Bool.or_eq_true_iff.mpr (.inr h)

theorem toNat_of_isAlpha {c : Char} (h : c.isAlpha = true) : 65 ≤ c.toNat ∧ c.toNat ≤ 122 := by
  rcases Bool.or_eq_true_iff.mp h with h | h
  · obtain ⟨hfirst, hlast⟩ : 65 ≤ c.toNat ∧ c.toNat ≤ 90 := of_decide_eq_true h
    exact ⟨hfirst, by omega⟩
  · obtain ⟨hfirst, hlast⟩ := Bool.and_eq_true_iff.mp h
    have hfirst : 97 ≤ c.toNat := of_decide_eq_true hfirst
    exact ⟨by omega, of_decide_eq_true hlast⟩

theorem toNat_of_isDigit {c : Char} (h : c.isDigit = true) : 48 ≤ c.toNat ∧ c.toNat ≤ 57 :=
  Char.isDigit_iff_toNat.mp h

/-- The characters of names are printable, and no blank is. -/
theorem isBlank_of_isNamePart {c : Char} (h : isNamePart c = true) : Text.isBlank c = false := by
  have hrange : 48 ≤ c.toNat ∧ c.toNat ≤ 122 := by
    rcases Bool.or_eq_true_iff.mp h with h | h
    · rcases Bool.or_eq_true_iff.mp h with h | h
      · have := toNat_of_isAlpha h
        omega
      · have := toNat_of_isDigit h
        omega
    · obtain rfl : c = '_' := by simpa using h
      decide
  simp only [Text.isBlank, Text.inRanges, Text.blanks, List.any_cons, List.any_nil, Bool.or_false,
    Bool.or_eq_false_iff, Bool.and_eq_false_iff, decide_eq_false_iff_not]
  omega

theorem ofSymbol?_of_isNamePart {c : Char} (h : isNamePart c = true) : ofSymbol? c = none := by
  unfold ofSymbol?
  split
  all_goals first | rfl | exact absurd h (by decide)

theorem takeWhile_append_of_stop {p : Char → Bool} {cs rest : List Char} (h : ∀ c ∈ cs, p c = true)
    (hrest : ∀ c ∈ rest.head?, p c = false) : (cs ++ rest).takeWhile p = cs := by
  rw [List.takeWhile_append_of_pos h]
  cases rest with
  | nil => simp
  | cons c rest => simp [hrest c rfl]

theorem dropWhile_append_of_stop {p : Char → Bool} {cs rest : List Char} (h : ∀ c ∈ cs, p c = true)
    (hrest : ∀ c ∈ rest.head?, p c = false) : (cs ++ rest).dropWhile p = rest := by
  rw [List.dropWhile_append_of_pos h]
  cases rest with
  | nil => simp
  | cons c rest => simp [hrest c rfl]

theorem compact_of_isNamePart {cs : List Char} (h : ∀ c ∈ cs, isNamePart c = true) :
    (Text.compact (String.ofList cs)).toList = cs := by
  rw [Text.toList_compact, String.toList_ofList, List.filter_eq_self]
  intro c hc
  rw [isBlank_of_isNamePart (h c hc), Bool.not_false]

theorem cuts_name {x : String} (h : IsName x) : Cuts x [.ident x] := by
  rcases h with rfl | ⟨c, cs, rfl, hc, hcs⟩
  · have hpi := cuts_nil.behind (m := "π") (c := 'π') rfl rfl
    rwa [String.append_empty] at hpi
  · intro before found rest hrest
    have hpart := isNamePart_of_isNameStart hc
    have hall : ∀ d ∈ c :: cs, isNamePart d = true := by
      intro d hd
      rcases List.mem_cons.mp hd with rfl | hd
      · exact hpart
      · exact hcs d hd
    have hstop : ∀ d ∈ rest.head?, isNamePart d = false := fun d hd => (hrest d hd).1
    have hl : lexeme before c (cs ++ rest)
        = .ok ⟨.ident (String.ofList (c :: cs)), c :: cs, rest⟩ := by
      unfold lexeme
      simp only [ofSymbol?_of_isNamePart hpart, hc, if_true, takeWhile_append_of_stop hcs hstop,
        dropWhile_append_of_stop hcs hstop]
    refine ⟨(c :: cs).getLast?, ?_⟩
    rw [compact_of_isNamePart hall]
    exact scanFrom_cons (isBlank_of_isNamePart hpart) hl

theorem isName_of_chars {x : String} (h : (match x.toList with
    | [] => false
    | c :: cs => isNameStart c && cs.all isNamePart) = true) : IsName x := by
  right
  split at h
  · cases h
  · rename_i c cs hx
    rw [Bool.and_eq_true, List.all_eq_true] at h
    exact ⟨c, cs, by rw [← hx, String.ofList_toList], h.1, h.2⟩

theorem isName_name (f : Builtin) : IsName f.name := by
  apply isName_of_chars
  cases f <;> rfl

/-! ## Numbers -/

theorem isNamePart_of_isDigit {c : Char} (h : c.isDigit = true) : isNamePart c = true :=
  Bool.or_eq_true_iff.mpr (.inl (Bool.or_eq_true_iff.mpr (.inr h)))

theorem not_isNameStart_of_isDigit {c : Char} (h : c.isDigit = true) : isNameStart c = false := by
  have hrange := toNat_of_isDigit h
  rw [← Bool.not_eq_true]
  intro hstart
  rcases Bool.or_eq_true_iff.mp hstart with hstart | hstart
  · have := toNat_of_isAlpha hstart
    omega
  · obtain rfl : c = '_' := by simpa using hstart
    exact absurd h (by decide)

/-- The digits of a decimal, with a point between them if some stand after it, are cut as one
number. -/
theorem number_of_digits {whole part rest : List Char} (before : Option Char)
    (hne : whole ≠ []) (hw : ∀ c ∈ whole, c.isDigit = true) (hp : ∀ c ∈ part, c.isDigit = true)
    (hrest : Apart rest) :
    number before ((if part.isEmpty then whole else whole ++ '.' :: part) ++ rest)
      = .ok ⟨.num (Number.ofDecimal false (.ofDigits whole part)),
          if part.isEmpty then whole else whole ++ '.' :: part, rest⟩ := by
  have hstop : ∀ c ∈ rest.head?, c.isDigit = false := fun c hc => (hrest c hc).2.1
  have hpoint : rest.head? ≠ some '.' := fun h => (hrest '.' h).2.2 rfl
  -- the digits before the point tell a number from a lone point
  have hdigit : ∀ tail, whole ++ tail ≠ ['.'] := by
    intro tail h
    obtain ⟨w, ws, rfl⟩ := List.exists_cons_of_ne_nil hne
    obtain rfl : w = '.' := (List.cons.inj h).1
    exact absurd (hw '.' (.head _)) (by decide)
  cases part with
  | nil =>
      have hsplit : splitFraction rest = ([], rest) := by
        unfold splitFraction
        split
        · simp at hpoint
        · rfl
      rw [number, List.isEmpty_nil, if_pos rfl, takeWhile_append_of_stop hw hstop,
        dropWhile_append_of_stop hw hstop, hsplit]
      have hnil : whole ≠ ['.'] := by simpa using hdigit []
      simp only [List.append_nil, if_neg hnil, if_neg hpoint, List.tail_nil]
  | cons d ds =>
      have hdot : ∀ c ∈ ('.' :: (d :: ds ++ rest)).head?, c.isDigit = false := by
        intro c hc
        obtain rfl : '.' = c := by simpa using hc
        decide
      have hsplit : splitFraction ('.' :: (d :: ds ++ rest)) = ('.' :: d :: ds, rest) := by
        simp only [splitFraction, takeWhile_append_of_stop hp hstop,
          dropWhile_append_of_stop hp hstop]
      rw [number, List.isEmpty_cons, if_neg (by decide), List.append_assoc, List.cons_append,
        takeWhile_append_of_stop hw hdot, dropWhile_append_of_stop hw hdot, hsplit]
      simp only [if_neg (hdigit ('.' :: d :: ds)), if_neg hpoint, List.tail_cons]

theorem compact_chars (d : Number.Decimal) :
    (Text.compact (String.ofList d.chars)).toList = d.chars := by
  rw [Text.toList_compact, String.toList_ofList, List.filter_eq_self]
  have hblank : ∀ c : Char, c.isDigit = true → (!Text.isBlank c) = true := fun c hc => by
    rw [isBlank_of_isNamePart (isNamePart_of_isDigit hc), Bool.not_false]
  intro c hc
  unfold Number.Decimal.chars at hc
  dsimp only at hc
  split at hc
  · exact hblank c (Number.Decimal.isDigit_of_mem_spelled (List.mem_append_left _ hc))
  · rcases List.mem_append.mp hc with hc | hc
    · exact hblank c (Number.Decimal.isDigit_of_mem_spelled (List.mem_append_left _ hc))
    · rcases List.mem_cons.mp hc with rfl | hc
      · decide
      · exact hblank c (Number.Decimal.isDigit_of_mem_spelled (List.mem_append_right _ hc))

/-- What is written for a decimal is cut as one number, which its digits make again. -/
theorem cuts_decimal (d : Number.Decimal) : Cuts (String.ofList d.chars)
    [.num (Number.ofDecimal false (.ofDigits d.spelled.1 d.spelled.2))] := by
  intro before found rest hrest
  have hnumber := number_of_digits before d.spelled_fst_ne_nil
    (fun c hc => Number.Decimal.isDigit_of_mem_spelled (List.mem_append_left d.spelled.2 hc))
    (fun c hc => Number.Decimal.isDigit_of_mem_spelled (List.mem_append_right d.spelled.1 hc))
    hrest
  have hchars : d.chars
      = if d.spelled.2.isEmpty then d.spelled.1 else d.spelled.1 ++ '.' :: d.spelled.2 := rfl
  rw [← hchars] at hnumber
  obtain ⟨c, cs, hcs, hdigit⟩ : ∃ c cs, d.chars = c :: cs ∧ c.isDigit = true := by
    obtain ⟨c, ws, hws⟩ := List.exists_cons_of_ne_nil d.spelled_fst_ne_nil
    have hc : c.isDigit = true := Number.Decimal.isDigit_of_mem_spelled (d := d)
      (by rw [hws]; exact .head _)
    rw [hchars, hws]
    split
    · exact ⟨c, ws, rfl, hc⟩
    · exact ⟨c, _, rfl, hc⟩
  -- the first character is a digit, so the lexer goes for a number
  rw [compact_chars]
  rw [hcs, List.cons_append] at hnumber ⊢
  have hpart := isNamePart_of_isDigit hdigit
  have hl : lexeme before c (cs ++ rest) = number before (c :: (cs ++ rest)) := by
    unfold lexeme
    simp only [ofSymbol?_of_isNamePart hpart, not_isNameStart_of_isDigit hdigit, hdigit,
      Bool.false_eq_true, if_false, Bool.true_or, if_true]
  exact ⟨_, scanFrom_cons (isBlank_of_isNamePart hpart) (hl.trans hnumber)⟩

/-- A literal that a tree can have got from a text or a scope: a finite number, or the infinity that
a text with too many digits is read as. -/
def IsLiteral (v : Float) : Prop :=
  v.isFinite = true ∨ v = Number.infinite

theorem cuts_text {v : Float} (h : IsLiteral v) : Cuts (Number.text v) (ofNumber v) := by
  rcases h with h | rfl
  · have hdigits := cuts_decimal (Number.Format.binary64.shortest (Number.code v))
    rw [Number.ofDecimal_shortest_spelled h] at hdigits
    rw [Number.text_of_isFinite h, ofNumber, if_pos h]
    split
    · exact hdigits.behind (m := "-") rfl rfl
    · exact hdigits
  · rw [ofNumber, Number.isFinite_infinite, Number.text_infinite]
    exact cuts_name (isName_of_chars rfl)

/-! ## Trees -/

theorem cuts_symbol_spaced (op : BinOp) : ∃ c, (Text.compact (Expr.spaced op)).toList = [c]
    ∧ ofSymbol? c = some (.op op) := by
  cases op
  · exact ⟨'+', rfl, rfl⟩
  · exact ⟨'-', rfl, rfl⟩
  · exact ⟨'*', rfl, rfl⟩
  · exact ⟨'/', rfl, rfl⟩
  · exact ⟨'^', rfl, rfl⟩

/-- All arguments but the first follow a comma. -/
theorem cuts_textOfAll_comma {args : List Expr}
    (h : ∀ a ∈ args, Cuts (a.textAt 0) (a.tokensAt 0)) {s : String} {ts : List Token}
    (hs : Cuts s ts) :
    Cuts (s ++ Expr.textOfAll ", " args) (ts ++ Expr.tokensOfAll [.comma] args) := by
  induction args generalizing s ts with
  | nil =>
      rw [Expr.textOfAll, Expr.tokensOfAll, String.append_empty, List.append_nil]
      exact hs
  | cons a args ih =>
      have ha := hs.join (m := ", ") (t := .comma) rfl rfl (h a (.head _))
      have := ih (fun b hb => h b (.tail _ hb)) ha
      rw [Expr.textOfAll, Expr.tokensOfAll]
      simpa [String.append_assoc] using this

theorem cuts_textOfAll {args : List Expr} (h : ∀ a ∈ args, Cuts (a.textAt 0) (a.tokensAt 0)) :
    Cuts (Expr.textOfAll "" args) (Expr.tokensOfAll [] args) := by
  cases args with
  | nil => exact cuts_nil
  | cons a args =>
      have := cuts_textOfAll_comma (fun b hb => h b (.tail _ hb)) (h a (.head _))
      rw [Expr.textOfAll, Expr.tokensOfAll, String.empty_append, List.nil_append]
      exact this

/-- The text of a tree is cut into its tokens at any place. -/
theorem cuts_textAt {e : Expr} (h : e.Readable IsLiteral) :
    ∀ least, Cuts (e.textAt least) (e.tokensAt least) := by
  induction h with
  | num hv => intro least; exact (cuts_text hv).enclose _
  | var spelled free => intro least; exact (cuts_name spelled).enclose _
  | neg he ih =>
      intro least
      exact ((ih Expr.signedTightness).behind (m := "-") rfl rfl).enclose _
  | @bin op a b ha hb iha ihb =>
      intro least
      obtain ⟨c, hc, ht⟩ := cuts_symbol_spaced op
      exact ((iha (Expr.leftTightness op)).join hc ht (ihb (Expr.rightTightness op))).enclose _
  | @call f args accepted hargs ih =>
      intro least
      -- from the inside out: the arguments, the parenthesis after them, the name before them
      have hargs := cuts_textOfAll fun a ha => ih a ha 0
      have hclosed := hargs.join (m := ")") (t := .rpar) rfl rfl cuts_nil
      have hcall := (cuts_name (isName_name f)).join (m := "(") (t := .lpar) rfl rfl hclosed
      have := hcall.enclose ((Expr.call f args).tightness < least)
      rw [Expr.textAt, Expr.tokensAt]
      simpa [String.append_assoc] using this

/-- **The lexer undoes the printer's spacing**: the text of a tree without its blanks is cut into
the tokens of the tree. -/
theorem scan_render {e : Expr} (h : e.Readable IsLiteral) :
    scan (Text.compact e.render) = .ok (e.tokensAt 0) := by
  rw [Expr.render_eq_text, Expr.text]
  exact (cuts_textAt h 0).scan

end Token

end Reckon
