import Mathlib.Data.List.TakeWhile
import Reckon.Proofs.Display.Tokens
import Reckon.Proofs.Number.Rounding

/-!
# What is cut off the front of a text

The lexer is a program with inner scans and a look at the character before. What it cuts is said
here without it: `Spells` lists the spellings of the tokens, the lexeme at the front of a text is the
longest start of the text that is a spelling (`Lexeme.IsLongest`), and a number may not have a point
behind it (`Lexeme.IsCut`). `Blames` says what is wrong with a text off which nothing can be cut.

`lexeme_eq_ok_iff` and `lexeme_eq_error_iff` say that `lexeme` does just this. It is enough to prove
that its answer is right (`isCut_of_lexeme`, `blames_of_lexeme`), because no text has two right
answers: it has one longest lexeme (`Lexeme.IsLongest.unique`), and a text that is to blame has
nothing to cut (`Blames.not_isCut`) and one thing wrong with it (`Blames.unique`).
-/

namespace Reckon

namespace Token

/-! ## Spellings -/

/-- The characters that are lexemes by themselves, and what they stand for. -/
def symbols : List (Char × Token) :=
  [('(', .lpar), (')', .rpar), (',', .comma), ('+', .op .add), ('-', .op .sub), ('*', .op .mul),
    ('/', .op .div), ('^', .op .pow), ('π', .ident "π"), ('√', .ident "sqrt")]

/-- The spellings of a decimal: some digits, or digits around a point, at least one. -/
inductive Numeral : List Char → Number.Decimal → Prop
  | whole {whole : List Char} (hne : whole ≠ []) (hw : ∀ c ∈ whole, c.isDigit = true) :
      Numeral whole (.ofDigits whole [])
  | point {whole part : List Char} (hne : whole ≠ [] ∨ part ≠ [])
      (hw : ∀ c ∈ whole, c.isDigit = true) (hp : ∀ c ∈ part, c.isDigit = true) :
      Numeral (whole ++ '.' :: part) (.ofDigits whole part)

/-- The spellings of a token. A number stands for what its decimal is rounded to. -/
inductive Spells : List Char → Token → Prop
  | symbol {c : Char} {t : Token} (h : (c, t) ∈ symbols) : Spells [c] t
  | name {c : Char} {cs : List Char} (hc : isNameStart c = true)
      (hcs : ∀ d ∈ cs, isNamePart d = true) : Spells (c :: cs) (.ident (String.ofList (c :: cs)))
  | number {cs : List Char} {d : Number.Decimal} {v : Float} (hd : Numeral cs d)
      (hv : Number.RoundsTo d v) : Spells cs (.num v)

/-- The characters that may stand in an expression. -/
def Allowed (c : Char) : Prop :=
  Text.isBlank c = true ∨ isNameStart c = true ∨ c.isDigit = true ∨ c = '.' ∨ ∃ t, (c, t) ∈ symbols

/-- The lexeme is the longest start of a text that is a spelling. -/
structure Lexeme.IsLongest (l : Lexeme) (cs : List Char) : Prop where
  split : l.text ++ l.rest = cs
  spelled : Spells l.text l.token
  longest : ∀ text t, text <+: cs → Spells text t → text.length ≤ l.text.length

/-- The lexeme is cut off a text: it is the longest, and no number with a point behind it. -/
structure Lexeme.IsCut (l : Lexeme) (cs : List Char) : Prop extends l.IsLongest cs where
  apart : ∀ v, l.token = .num v → l.rest.head? ≠ some '.'

/-- A letter or an underscore stands right before or right after a point. -/
def NextToName (before after : Option Char) : Prop :=
  (∃ c ∈ after, isNameStart c = true) ∨ ∃ c ∈ before, isNameStart c = true

/-- What is wrong with a text off which nothing can be cut, given the character before it. -/
inductive Blames (before : Option Char) : List Char → Fault → Prop
  /-- It starts with a character that may not stand anywhere. -/
  | foreign {c : Char} {cs : List Char} (hc : ¬ Allowed c) :
      Blames before (c :: cs) (.unexpectedCharacter c)
  /-- It starts with a point without digits, which looks like the access to a member. -/
  | member {cs : List Char} (hdigit : ∀ c ∈ cs.head?, c.isDigit = false)
      (hname : NextToName before cs.head?) : Blames before ('.' :: cs) .memberAccess
  /-- It starts with a point without digits. -/
  | stray {cs : List Char} (hdigit : ∀ c ∈ cs.head?, c.isDigit = false)
      (hname : ¬ NextToName before cs.head?) : Blames before ('.' :: cs) .strayPoint
  /-- It starts with a number, and a point comes after it. -/
  | second {l : Lexeme} {cs : List Char} {v : Float} (hl : l.IsLongest cs) (hv : l.token = .num v)
      (hpoint : l.rest.head? = some '.') :
      Blames before cs (.malformedNumber (String.ofList l.text))

/-! ## The first character tells the kinds of spellings apart -/

theorem ofSymbol?_eq_some_iff {c : Char} {t : Token} :
    ofSymbol? c = some t ↔ (c, t) ∈ symbols := by
  constructor
  · intro h
    unfold ofSymbol? at h
    split at h <;> cases h <;> simp [symbols]
  · intro h
    simp only [symbols, List.mem_cons, Prod.mk.injEq, List.not_mem_nil, or_false] at h
    rcases h with ⟨rfl, rfl⟩ | ⟨rfl, rfl⟩ | ⟨rfl, rfl⟩ | ⟨rfl, rfl⟩ | ⟨rfl, rfl⟩ | ⟨rfl, rfl⟩
      | ⟨rfl, rfl⟩ | ⟨rfl, rfl⟩ | ⟨rfl, rfl⟩ | ⟨rfl, rfl⟩
    all_goals rfl

theorem ofSymbol?_ne_num (c : Char) (v : Float) : ofSymbol? c ≠ some (.num v) := by
  intro h
  unfold ofSymbol? at h
  split at h <;> cases h

/-- What a number starts with. -/
def IsNumberStart (c : Char) : Prop := c.isDigit = true ∨ c = '.'

instance : DecidablePred IsNumberStart :=
  fun c => inferInstanceAs (Decidable (c.isDigit = true ∨ c = '.'))

theorem not_isNameStart_of_isNumberStart {c : Char} (h : IsNumberStart c) :
    isNameStart c = false := by
  rcases h with h | rfl
  · exact not_isNameStart_of_isDigit h
  · rfl

theorem ofSymbol?_of_isNumberStart {c : Char} (h : IsNumberStart c) : ofSymbol? c = none := by
  rcases h with h | rfl
  · exact ofSymbol?_of_isNamePart (isNamePart_of_isDigit h)
  · rfl

/-- A number is made of what it can start with. -/
theorem Numeral.isNumberStart {cs : List Char} {d : Number.Decimal} (h : Numeral cs d) :
    ∀ c ∈ cs, IsNumberStart c := by
  intro c hc
  cases h with
  | whole _ hw => exact .inl (hw c hc)
  | point _ hw hp =>
      rcases List.mem_append.1 hc with hc | hc
      · exact .inl (hw c hc)
      rcases List.mem_cons.1 hc with rfl | hc
      · exact .inr rfl
      · exact .inl (hp c hc)

theorem Numeral.head {c : Char} {cs : List Char} {d : Number.Decimal} (h : Numeral (c :: cs) d) :
    IsNumberStart c := h.isNumberStart c (.head _)

theorem Numeral.ne_nil {cs : List Char} {d : Number.Decimal} (h : Numeral cs d) : cs ≠ [] := by
  cases h with
  | whole hne _ => exact hne
  | point _ _ _ => simp

theorem Spells.ne_nil {cs : List Char} {t : Token} (h : Spells cs t) : cs ≠ [] := by
  cases h with
  | symbol _ => simp
  | name _ _ => simp
  | number hd _ => exact hd.ne_nil

/-- A spelling at the front of a text starts as the text does. -/
theorem Spells.of_prefix {c : Char} {cs text : List Char} {t : Token} (h : Spells text t)
    (hpre : text <+: c :: cs) : ∃ ds, text = c :: ds ∧ ds <+: cs := by
  obtain ⟨d, ds, rfl⟩ := List.exists_cons_of_ne_nil h.ne_nil
  obtain ⟨rfl, hds⟩ := List.cons_prefix_cons.1 hpre
  exact ⟨ds, rfl, hds⟩

theorem Spells.head_cases {c : Char} {cs : List Char} {t : Token} (h : Spells (c :: cs) t) :
    (ofSymbol? c = some t ∧ cs = [])
    ∨ (isNameStart c = true ∧ (∀ d ∈ cs, isNamePart d = true)
        ∧ t = .ident (String.ofList (c :: cs)))
    ∨ (IsNumberStart c ∧ ∃ d v, Numeral (c :: cs) d ∧ Number.RoundsTo d v ∧ t = .num v) := by
  cases h with
  | symbol h => exact .inl ⟨ofSymbol?_eq_some_iff.2 h, rfl⟩
  | name hc hcs => exact .inr (.inl ⟨hc, hcs, rfl⟩)
  | number hd hv => exact .inr (.inr ⟨hd.head, _, _, hd, hv, rfl⟩)

theorem Spells.of_symbol {c : Char} {cs : List Char} {t t' : Token} (h : Spells (c :: cs) t)
    (hc : ofSymbol? c = some t') : cs = [] ∧ t = t' := by
  rcases h.head_cases with ⟨h, hcs⟩ | ⟨h, -, -⟩ | ⟨h, -⟩
  · exact ⟨hcs, Option.some.inj (h.symm.trans hc)⟩
  · rw [ofSymbol?_of_isNamePart (isNamePart_of_isNameStart h)] at hc
    cases hc
  · rw [ofSymbol?_of_isNumberStart h] at hc
    cases hc

theorem Spells.of_nameStart {c : Char} {cs : List Char} {t : Token} (h : Spells (c :: cs) t)
    (hc : isNameStart c = true) :
    (∀ d ∈ cs, isNamePart d = true) ∧ t = .ident (String.ofList (c :: cs)) := by
  rcases h.head_cases with ⟨h, -⟩ | ⟨-, hcs, ht⟩ | ⟨h, -⟩
  · rw [ofSymbol?_of_isNamePart (isNamePart_of_isNameStart hc)] at h
    cases h
  · exact ⟨hcs, ht⟩
  · rw [not_isNameStart_of_isNumberStart h] at hc
    cases hc

theorem Spells.of_numberStart {c : Char} {cs : List Char} {t : Token} (h : Spells (c :: cs) t)
    (hc : IsNumberStart c) :
    ∃ d v, Numeral (c :: cs) d ∧ Number.RoundsTo d v ∧ t = .num v := by
  rcases h.head_cases with ⟨h, -⟩ | ⟨h, -, -⟩ | ⟨-, h⟩
  · rw [ofSymbol?_of_isNumberStart hc] at h
    cases h
  · rw [not_isNameStart_of_isNumberStart hc] at h
    cases h
  · exact h

/-- A lexeme is a symbol by itself, or all of a name, or all of a number. -/
theorem Spells.parts {cs : List Char} {t : Token} (h : Spells cs t) :
    (∃ c, cs = [c] ∧ ofSymbol? c = some t) ∨ (∀ c ∈ cs, isNamePart c = true)
    ∨ ∀ c ∈ cs, IsNumberStart c := by
  cases h with
  | symbol h => exact .inl ⟨_, rfl, ofSymbol?_eq_some_iff.2 h⟩
  | name hc hcs =>
      right; left
      intro d hd
      rcases List.mem_cons.1 hd with rfl | hd
      · exact isNamePart_of_isNameStart hc
      · exact hcs d hd
  | number hd _ => exact .inr (.inr hd.isNumberStart)

theorem Spells.chars {cs : List Char} {t : Token} (h : Spells cs t) :
    ∀ c ∈ cs, (∃ t, ofSymbol? c = some t) ∨ isNamePart c = true ∨ c = '.' := by
  intro c hc
  rcases h.parts with ⟨d, rfl, hd⟩ | hname | hnumber
  · obtain rfl := List.mem_singleton.1 hc
    exact .inl ⟨t, hd⟩
  · exact .inr (.inl (hname c hc))
  · rcases hnumber c hc with hdigit | hpoint
    · exact .inr (.inl (isNamePart_of_isDigit hdigit))
    · exact .inr (.inr hpoint)

/-- No blank is part of a lexeme. -/
theorem Spells.isBlank {cs : List Char} {t : Token} (h : Spells cs t) :
    ∀ c ∈ cs, Text.isBlank c = false := by
  intro c hc
  rcases h.chars c hc with ⟨t, ht⟩ | hpart | rfl
  · exact isBlank_of_symbol ht
  · exact isBlank_of_isNamePart hpart
  · decide

theorem allowed_of_isNamePart {c : Char} (h : isNamePart c = true) : Allowed c := by
  rcases Bool.or_eq_true_iff.1 h with h | h
  · rcases Bool.or_eq_true_iff.1 h with h | h
    · exact .inr (.inl (Bool.or_eq_true_iff.2 (.inl h)))
    · exact .inr (.inr (.inl h))
  · exact .inr (.inl (Bool.or_eq_true_iff.2 (.inr h)))

theorem Spells.allowed {cs : List Char} {t : Token} (h : Spells cs t) : ∀ c ∈ cs, Allowed c := by
  intro c hc
  rcases h.chars c hc with ⟨t, ht⟩ | hpart | hpoint
  · exact .inr (.inr (.inr (.inr ⟨t, ofSymbol?_eq_some_iff.1 ht⟩)))
  · exact allowed_of_isNamePart hpart
  · exact .inr (.inr (.inr (.inl hpoint)))

/-! ## A spelling stands for one token -/

/-- The digits of a numeral are those around its first point. -/
theorem Numeral.decimal_eq {cs : List Char} {d : Number.Decimal} (h : Numeral cs d) :
    d = .ofDigits (cs.takeWhile Char.isDigit) (cs.dropWhile Char.isDigit).tail := by
  cases h with
  | whole hne hw =>
      rw [List.takeWhile_eq_self_iff.2 hw, List.dropWhile_eq_nil_iff.2 hw]
      rfl
  | point hne hw hp =>
      rw [takeWhile_append_of_stop hw (by simp), dropWhile_append_of_stop hw (by simp)]
      rfl

theorem Spells.unique {cs : List Char} {t t' : Token} (h : Spells cs t) (h' : Spells cs t') :
    t = t' := by
  obtain ⟨c, cs, rfl⟩ := List.exists_cons_of_ne_nil h.ne_nil
  rcases h.head_cases with ⟨hc, -⟩ | ⟨hc, -, rfl⟩ | ⟨hc, d, v, hd, hv, rfl⟩
  · exact (h'.of_symbol hc).2.symm
  · exact (h'.of_nameStart hc).2.symm
  · obtain ⟨d', v', hd', hv', rfl⟩ := h'.of_numberStart hc
    rw [Number.roundsTo_iff.1 hv, Number.roundsTo_iff.1 hv', hd.decimal_eq, hd'.decimal_eq]

/-- **A text has one longest lexeme.** -/
theorem Lexeme.IsLongest.unique {l l' : Lexeme} {cs : List Char} (h : l.IsLongest cs)
    (h' : l'.IsLongest cs) : l = l' := by
  have hpre : l.text <+: cs := ⟨l.rest, h.split⟩
  have hpre' : l'.text <+: cs := ⟨l'.rest, h'.split⟩
  have htext : l.text = l'.text :=
    (List.prefix_of_prefix_length_le hpre hpre' (h'.longest _ _ hpre h.spelled)).eq_of_length_le
      (h.longest _ _ hpre' h'.spelled)
  have hrest := h.split.trans h'.split.symm
  rw [htext, List.append_cancel_left_eq] at hrest
  have htoken : l.token = l'.token := h.spelled.unique (htext ▸ h'.spelled)
  obtain ⟨t, text, rest⟩ := l
  obtain ⟨t', text', rest'⟩ := l'
  dsimp only at htext hrest htoken
  rw [htext, hrest, htoken]

/-! ## A numeral by itself -/

theorem toLower_of_isNumberStart {c : Char} (h : IsNumberStart c) : c.toLower = c := by
  have hlt : ¬ 'A'.toNat ≤ c.toNat := by
    rcases h with h | rfl
    · have := toNat_of_isDigit h
      have : 'A'.toNat = 65 := rfl
      omega
    · decide
  unfold Char.toLower
  rw [dif_neg]
  exact fun hc => hlt hc.1

theorem Numeral.scientific?_eq {cs : List Char} {d : Number.Decimal} (h : Numeral cs d) :
    Number.scientific? cs = some d := by
  unfold Number.scientific?
  cases h with
  | whole hne hw =>
      rw [List.takeWhile_eq_self_iff.2 hw, List.dropWhile_eq_nil_iff.2 hw]
      simp [Number.fractionPart, Number.exponent?, hne]
  | @point whole part hne hw hp =>
      rw [takeWhile_append_of_stop hw (by simp), dropWhile_append_of_stop hw (by simp)]
      simp only [Number.fractionPart, List.takeWhile_eq_self_iff.2 hp,
        List.dropWhile_eq_nil_iff.2 hp, Number.exponent?]
      have hsome : (whole.isEmpty && part.isEmpty) = false := by
        rw [Bool.and_eq_false_iff]
        simpa using hne
      simp [hsome]

/-- **A numeral by itself is read as the lexer reads it.** -/
theorem Numeral.ofText?_eq {cs : List Char} {d : Number.Decimal} (h : Numeral cs d) :
    Number.ofText? (String.ofList cs) = some (Number.ofDecimal false d : Float) := by
  obtain ⟨c, cs, rfl⟩ := List.exists_cons_of_ne_nil h.ne_nil
  have hletter : ∀ e : Char, ¬ IsNumberStart e → c ≠ e := fun e he hce => he (hce ▸ h.head)
  have hsplit : Number.splitSign (c :: cs) = (false, c :: cs) := by
    unfold Number.splitSign
    split
    · exact absurd (List.cons.inj ‹_›).1 (hletter _ (by decide))
    · exact absurd (List.cons.inj ‹_›).1 (hletter _ (by decide))
    · rfl
  -- it is none of the words, which start with letters
  have hword : ∀ (word : String) (e : Char) (w : List Char), word.toList = e :: w →
      ¬ IsNumberStart e → String.ofList ((c :: cs).map Char.toLower) ≠ word := by
    rintro word e w hw he rfl
    rw [String.toList_ofList, List.map_cons, toLower_of_isNumberStart h.head] at hw
    exact hletter e he (List.cons.inj hw).1
  unfold Number.ofText?
  rw [String.toList_ofList, hsplit]
  dsimp only
  unfold Number.Format.ofNumeral?
  dsimp only
  rw [if_neg (not_or.2 ⟨hword "inf" 'i' _ rfl (by decide), hword "infinity" 'i' _ rfl (by decide)⟩),
    if_neg (hword "nan" 'n' _ rfl (by decide)), h.scientific?_eq]
  exact congrArg (fun code => some (Number.ofCode false code)) (Number.ofScaled_eq_ofDecimal d)

theorem Spells.ofText?_eq {cs : List Char} {v : Float} (h : Spells cs (.num v)) :
    Number.ofText? (String.ofList cs) = some v := by
  cases h with
  | symbol h => exact absurd (ofSymbol?_eq_some_iff.2 h) (ofSymbol?_ne_num _ v)
  | number hd hv => rw [hd.ofText?_eq, Number.roundsTo_iff.1 hv]

/-! ## What the lexer cuts -/

section

variable {before : Option Char} {c : Char} {cs : List Char}

theorem lexeme_of_symbol {t : Token} (h : ofSymbol? c = some t) :
    lexeme before c cs = .ok ⟨t, [c], cs⟩ := by
  unfold lexeme
  simp only [h]

theorem lexeme_of_nameStart (h : isNameStart c = true) :
    lexeme before c cs = .ok ⟨.ident (String.ofList (c :: cs.takeWhile isNamePart)),
      c :: cs.takeWhile isNamePart, cs.dropWhile isNamePart⟩ := by
  unfold lexeme
  simp only [ofSymbol?_of_isNamePart (isNamePart_of_isNameStart h), h, if_true]

theorem lexeme_of_numberStart (h : IsNumberStart c) :
    lexeme before c cs = number before (c :: cs) := by
  have hcond : (c.isDigit || decide (c = '.')) = true := by
    rw [Bool.or_eq_true, decide_eq_true_iff]
    exact h
  unfold lexeme
  simp only [ofSymbol?_of_isNumberStart h, not_isNameStart_of_isNumberStart h, hcond,
    Bool.false_eq_true, if_false, if_true]

theorem lexeme_of_not_allowed (h : ¬ Allowed c) :
    lexeme before c cs = .error (.unexpectedCharacter c) := by
  simp only [Allowed, not_or, not_exists] at h
  obtain ⟨-, hname, hdigit, hpoint, hsymbol⟩ := h
  have hnone : ofSymbol? c = none := by
    rw [Option.eq_none_iff_forall_ne_some]
    exact fun t ht => hsymbol t (ofSymbol?_eq_some_iff.1 ht)
  unfold lexeme
  simp only [hnone, hname, hdigit, hpoint, Bool.false_eq_true, decide_false, Bool.or_false, if_false]

/-- What the lexer asks about the first character, in its order. -/
theorem front_cases (hc : Text.isBlank c = false) :
    (∃ t, ofSymbol? c = some t) ∨ isNameStart c = true ∨ IsNumberStart c ∨ ¬ Allowed c := by
  by_cases h : Allowed c
  · rcases h with h | h | h | h | ⟨t, h⟩
    · rw [hc] at h
      cases h
    · exact .inr (.inl h)
    · exact .inr (.inr (.inl (.inl h)))
    · exact .inr (.inr (.inl (.inr h)))
    · exact .inl ⟨t, ofSymbol?_eq_some_iff.2 h⟩
  · exact .inr (.inr (.inr h))

theorem length_le_takeWhile {p : Char → Bool} {ds : List Char} (h : ∀ d ∈ ds, p d = true)
    (hpre : ds <+: cs) : ds.length ≤ (cs.takeWhile p).length := by
  obtain ⟨rest, rfl⟩ := hpre
  rw [List.takeWhile_append_of_pos h, List.length_append]
  omega

theorem isCut_symbol {t : Token} (h : ofSymbol? c = some t) :
    Lexeme.IsCut ⟨t, [c], cs⟩ (c :: cs) where
  split := rfl
  spelled := .symbol (ofSymbol?_eq_some_iff.1 h)
  longest := by
    intro text t' hpre hspelled
    obtain ⟨ds, rfl, -⟩ := hspelled.of_prefix hpre
    rw [(hspelled.of_symbol h).1]
  apart := by
    rintro v rfl
    exact absurd h (ofSymbol?_ne_num c v)

theorem isCut_name (h : isNameStart c = true) :
    Lexeme.IsCut ⟨.ident (String.ofList (c :: cs.takeWhile isNamePart)),
      c :: cs.takeWhile isNamePart, cs.dropWhile isNamePart⟩ (c :: cs) where
  split := congrArg (c :: ·) List.takeWhile_append_dropWhile
  spelled := .name h fun d hd => List.mem_takeWhile_imp hd
  longest := by
    intro text t' hpre hspelled
    obtain ⟨ds, rfl, hds⟩ := hspelled.of_prefix hpre
    exact Nat.succ_le_succ (length_le_takeWhile (hspelled.of_nameStart h).1 hds)
  apart := by
    intro v hv
    cases hv

/-! ## Numbers -/

/-- The digits, the point and the digits that the lexer takes for a number, whatever they are and
whatever comes after them. -/
def frontNumber (cs : List Char) : Lexeme :=
  let whole := cs.takeWhile Char.isDigit
  let part := (splitFraction (cs.dropWhile Char.isDigit)).1
  ⟨.num (Number.ofDecimal false (.ofDigits whole part.tail)), whole ++ part,
    (splitFraction (cs.dropWhile Char.isDigit)).2⟩

theorem number_eq (before : Option Char) (cs : List Char) : number before cs
    = if (frontNumber cs).text = ['.'] then
        if (frontNumber cs).rest.head?.any isNameStart || before.any isNameStart then
          .error .memberAccess
        else .error .strayPoint
      else if (frontNumber cs).rest.head? = some '.' then
        .error (.malformedNumber (String.ofList (frontNumber cs).text))
      else .ok (frontNumber cs) := rfl

theorem splitFraction_cases (cs : List Char) :
    (cs.head? ≠ some '.' ∧ splitFraction cs = ([], cs))
    ∨ ∃ ds, cs = '.' :: ds
      ∧ splitFraction cs = ('.' :: ds.takeWhile Char.isDigit, ds.dropWhile Char.isDigit) := by
  unfold splitFraction
  split
  · rename_i ds
    exact .inr ⟨ds, rfl, rfl⟩
  · rename_i hne
    refine .inl ⟨fun h => ?_, rfl⟩
    obtain ⟨d, ds, rfl⟩ := List.exists_cons_of_ne_nil (l := cs) (by rintro rfl; cases h)
    exact hne ds (by rw [Option.some.inj h])

/-- What is taken is a number, unless it is a point alone. -/
theorem spells_frontNumber (hc : IsNumberStart c) (h : (frontNumber (c :: cs)).text ≠ ['.']) :
    Spells (frontNumber (c :: cs)).text (frontNumber (c :: cs)).token := by
  have hw : ∀ d ∈ (c :: cs).takeWhile Char.isDigit, d.isDigit = true :=
    fun d hd => List.mem_takeWhile_imp hd
  unfold frontNumber at h ⊢
  dsimp only at h ⊢
  refine .number ?_ (Number.roundsTo_iff.2 rfl)
  rcases splitFraction_cases ((c :: cs).dropWhile Char.isDigit) with ⟨hne, hs⟩ | ⟨ds, -, hs⟩
  · rw [hs, List.append_nil]
    refine .whole ?_ hw
    rcases hc with hc | rfl
    · rw [List.takeWhile_cons_of_pos hc]
      exact List.cons_ne_nil _ _
    · exact absurd rfl hne
  · rw [hs] at h ⊢
    refine .point ?_ hw fun d hd => List.mem_takeWhile_imp hd
    by_contra hcon
    rw [not_or, not_not, not_not] at hcon
    rw [hcon.1, hcon.2] at h
    exact h rfl

/-- No numeral at the front of a text has more characters than the lexer takes. -/
theorem Numeral.length_le {text : List Char} {d : Number.Decimal} (h : Numeral text d)
    (hpre : text <+: cs) : text.length ≤ (frontNumber cs).text.length := by
  unfold frontNumber
  cases h with
  | whole hne hw =>
      have := length_le_takeWhile hw hpre
      rw [List.length_append]
      omega
  | @point whole part hne hw hp =>
      obtain ⟨rest, rfl⟩ := hpre
      rw [List.append_assoc, List.cons_append, takeWhile_append_of_stop hw (by simp),
        dropWhile_append_of_stop hw (by simp)]
      change _ ≤ (whole ++ '.' :: (part ++ rest).takeWhile Char.isDigit).length
      have := length_le_takeWhile hp (List.prefix_append part rest)
      simp only [List.length_append, List.length_cons]
      omega

theorem isLongest_frontNumber (hc : IsNumberStart c) (h : (frontNumber (c :: cs)).text ≠ ['.']) :
    (frontNumber (c :: cs)).IsLongest (c :: cs) where
  split := by
    unfold frontNumber
    rw [List.append_assoc, splitFraction_append, List.takeWhile_append_dropWhile]
  spelled := spells_frontNumber hc h
  longest := by
    intro text t hpre hspelled
    obtain ⟨ds, rfl, -⟩ := hspelled.of_prefix hpre
    obtain ⟨n, v, hn, -, -⟩ := hspelled.of_numberStart hc
    exact hn.length_le hpre

/-- The lexer takes a point alone only where no digit follows it. -/
theorem lone_point (hc : IsNumberStart c) (h : (frontNumber (c :: cs)).text = ['.']) :
    c = '.' ∧ (∀ d ∈ cs.head?, d.isDigit = false) ∧ (frontNumber (c :: cs)).rest = cs := by
  unfold frontNumber at h
  dsimp only at h
  rcases hc with hc | rfl
  · rw [List.takeWhile_cons_of_pos hc, List.cons_append, List.cons.injEq] at h
    rw [h.1] at hc
    cases hc
  · have hnil : cs.takeWhile Char.isDigit = [] := (List.cons.inj h).2
    refine ⟨rfl, ?_, ?_⟩
    · intro d hd
      cases cs with
      | nil => cases hd
      | cons e cs =>
          obtain rfl : e = d := by simpa using hd
          rw [List.takeWhile_eq_nil_iff] at hnil
          simpa using hnil (by simp)
    · change cs.dropWhile Char.isDigit = cs
      have := List.takeWhile_append_dropWhile (p := Char.isDigit) (l := cs)
      rwa [hnil, List.nil_append] at this

theorem nextToName_iff {after : Option Char} :
    (after.any isNameStart || before.any isNameStart) = true ↔ NextToName before after := by
  simp only [Bool.or_eq_true, Option.any_eq_true, NextToName, Option.mem_def]

theorem isCut_of_number {l : Lexeme} (hc : IsNumberStart c)
    (h : number before (c :: cs) = .ok l) : l.IsCut (c :: cs) := by
  rw [number_eq] at h
  split at h
  · split at h <;> cases h
  rename_i hpoint
  split at h
  · cases h
  rename_i hapart
  cases h
  exact ⟨isLongest_frontNumber hc hpoint, fun _ _ => hapart⟩

theorem blames_of_number {f : Fault} (hc : IsNumberStart c)
    (h : number before (c :: cs) = .error f) : Blames before (c :: cs) f := by
  rw [number_eq] at h
  split at h
  · rename_i hlone
    obtain ⟨rfl, hdigit, hrest⟩ := lone_point hc hlone
    rw [hrest] at h
    split at h
    · rename_i hname
      cases h
      exact .member hdigit (nextToName_iff.1 hname)
    · rename_i hname
      cases h
      exact .stray hdigit (mt nextToName_iff.2 hname)
  rename_i hpoint
  split at h
  · rename_i hsecond
    cases h
    exact .second (isLongest_frontNumber hc hpoint) rfl hsecond
  · cases h

/-! ## Its answers are right -/

theorem isCut_of_lexeme {l : Lexeme} (hc : Text.isBlank c = false)
    (h : lexeme before c cs = .ok l) : l.IsCut (c :: cs) := by
  rcases front_cases hc with ⟨t, hc⟩ | hc | hc | hc
  · rw [lexeme_of_symbol hc] at h
    cases h
    exact isCut_symbol hc
  · rw [lexeme_of_nameStart hc] at h
    cases h
    exact isCut_name hc
  · rw [lexeme_of_numberStart hc] at h
    exact isCut_of_number hc h
  · rw [lexeme_of_not_allowed hc] at h
    cases h

theorem blames_of_lexeme {f : Fault} (hc : Text.isBlank c = false)
    (h : lexeme before c cs = .error f) : Blames before (c :: cs) f := by
  rcases front_cases hc with ⟨t, hc⟩ | hc | hc | hc
  · rw [lexeme_of_symbol hc] at h
    cases h
  · rw [lexeme_of_nameStart hc] at h
    cases h
  · rw [lexeme_of_numberStart hc] at h
    exact blames_of_number hc h
  · rw [lexeme_of_not_allowed hc] at h
    cases h
    exact .foreign hc

/-! ## There are no other right answers -/

theorem Lexeme.IsLongest.text_eq {l : Lexeme} (h : l.IsLongest (c :: cs)) :
    ∃ ds, l.text = c :: ds ∧ ds <+: cs := h.spelled.of_prefix ⟨l.rest, h.split⟩

theorem not_isLongest_of_not_allowed {l : Lexeme} (hc : ¬ Allowed c) : ¬ l.IsLongest (c :: cs) := by
  intro h
  obtain ⟨ds, hds, -⟩ := h.text_eq
  have hspelled := h.spelled
  rw [hds] at hspelled
  exact hc (hspelled.allowed c (.head _))

/-- A numeral that starts with a point goes on with a digit. -/
theorem Numeral.digit_of_point {ds : List Char} {d : Number.Decimal} (h : Numeral ('.' :: ds) d) :
    ∃ e ∈ ds.head?, e.isDigit = true := by
  have hpoint : ¬ '.'.isDigit = true := by decide
  generalize htext : '.' :: ds = text at h
  cases h with
  | whole hne hw => exact absurd (hw '.' (htext ▸ .head _)) hpoint
  | @point whole part hne hw hp =>
      cases whole with
      | nil =>
          obtain rfl : ds = part := (List.cons.inj htext).2
          obtain ⟨e, es, rfl⟩ := List.exists_cons_of_ne_nil (hne.resolve_left (· rfl))
          exact ⟨e, rfl, hp e (.head _)⟩
      | cons w ws => exact absurd ((List.cons.inj htext).1 ▸ hw w (.head _)) hpoint

theorem not_isLongest_of_lone {l : Lexeme} (hdigit : ∀ d ∈ cs.head?, d.isDigit = false) :
    ¬ l.IsLongest ('.' :: cs) := by
  intro h
  obtain ⟨ds, hds, hpre⟩ := h.text_eq
  have hspelled := h.spelled
  rw [hds] at hspelled
  obtain ⟨d, v, hd, -, -⟩ := hspelled.of_numberStart (.inr rfl)
  obtain ⟨e, he, hdig⟩ := hd.digit_of_point
  cases ds with
  | nil => cases he
  | cons e' es =>
      obtain rfl : e' = e := by simpa using he
      obtain ⟨rest, rfl⟩ := hpre
      rw [hdigit e' rfl] at hdig
      cases hdig

theorem Blames.not_isCut {f : Fault} {l : Lexeme} (h : Blames before cs f) : ¬ l.IsCut cs := by
  intro hl
  cases h with
  | foreign hc => exact not_isLongest_of_not_allowed hc hl.toIsLongest
  | member hdigit _ => exact not_isLongest_of_lone hdigit hl.toIsLongest
  | stray hdigit _ => exact not_isLongest_of_lone hdigit hl.toIsLongest
  | second hl' hv hpoint =>
      obtain rfl := hl.toIsLongest.unique hl'
      exact hl.apart _ hv hpoint

theorem Blames.unique {f f' : Fault} (h : Blames before cs f) (h' : Blames before cs f') :
    f = f' := by
  have hpoint : Allowed '.' := .inr (.inr (.inr (.inl rfl)))
  cases h with
  | foreign hc =>
      cases h' with
      | foreign _ => rfl
      | member _ _ => exact absurd hpoint hc
      | stray _ _ => exact absurd hpoint hc
      | second hl _ _ => exact absurd hl (not_isLongest_of_not_allowed hc)
  | member hdigit hname =>
      cases h' with
      | foreign hc => exact absurd hpoint hc
      | member _ _ => rfl
      | stray _ hname' => exact absurd hname hname'
      | second hl _ _ => exact absurd hl (not_isLongest_of_lone hdigit)
  | stray hdigit hname =>
      cases h' with
      | foreign hc => exact absurd hpoint hc
      | member _ hname' => exact absurd hname' hname
      | stray _ _ => rfl
      | second hl _ _ => exact absurd hl (not_isLongest_of_lone hdigit)
  | second hl _ _ =>
      cases h' with
      | foreign hc => exact absurd hl (not_isLongest_of_not_allowed hc)
      | member hdigit _ => exact absurd hl (not_isLongest_of_lone hdigit)
      | stray hdigit _ => exact absurd hl (not_isLongest_of_lone hdigit)
      | second hl' _ _ => rw [hl.unique hl']

/-- What is to blame is not a blank. -/
theorem Blames.head {f : Fault} (h : Blames before cs f) :
    ∃ c cs', cs = c :: cs' ∧ Text.isBlank c = false := by
  cases h with
  | foreign hc =>
      refine ⟨_, _, rfl, ?_⟩
      rw [← Bool.not_eq_true]
      exact fun hblank => hc (.inl hblank)
  | member _ _ => exact ⟨_, _, rfl, by decide⟩
  | stray _ _ => exact ⟨_, _, rfl, by decide⟩
  | @second l _ _ hl _ _ =>
      obtain ⟨c, ds, hds⟩ := List.exists_cons_of_ne_nil hl.spelled.ne_nil
      refine ⟨c, ds ++ l.rest, ?_, hl.spelled.isBlank c (hds ▸ .head _)⟩
      rw [← hl.split, hds]
      rfl

theorem Blames.kind {f : Fault} (h : Blames before cs f) :
    f.kind = .unsafeExpression ∨ f.kind = .evaluationError := by
  cases h with
  | foreign _ => exact .inl rfl
  | member _ _ => exact .inl rfl
  | stray _ _ => exact .inr rfl
  | second _ _ _ => exact .inr rfl

/-- **The lexer cuts off the longest lexeme**, where there is one. -/
theorem lexeme_eq_ok_iff {l : Lexeme} (hc : Text.isBlank c = false) :
    lexeme before c cs = .ok l ↔ l.IsCut (c :: cs) := by
  refine ⟨isCut_of_lexeme hc, fun h => ?_⟩
  cases hl : lexeme before c cs with
  | ok l' => rw [h.toIsLongest.unique (isCut_of_lexeme hc hl).toIsLongest]
  | error f => exact absurd h (blames_of_lexeme hc hl).not_isCut

/-- **And it says what is wrong** where there is none. -/
theorem lexeme_eq_error_iff {f : Fault} (hc : Text.isBlank c = false) :
    lexeme before c cs = .error f ↔ Blames before (c :: cs) f := by
  refine ⟨blames_of_lexeme hc, fun h => ?_⟩
  cases hl : lexeme before c cs with
  | ok l => exact absurd (isCut_of_lexeme hc hl) h.not_isCut
  | error f' => rw [h.unique (blames_of_lexeme hc hl)]

end

end Token

end Reckon
