import Mathlib.Data.List.Basic
import Reckon.Proofs.Token.Cut

/-!
# A point without digits

A point that no number takes in stops the lexer. Next to a name it looks like the access to a
member, which is no arithmetic; anywhere else it is a slip.

The lexer tells the two apart by one character on either side of the point. Behind the point that is
all there is to see, since a name begins with its first character. Before the point a name ends, and
a name may end in a digit. A digit right before such a point is always the end of a name, because a
number would have gone on with the point (`endsInName_iff`). But the lexer looks there, too, for
what a name begins with, and does not know these names (`scan_lonePoint`).
-/

namespace Reckon

namespace Token

/-- A name in letters, digits and underscores, and the token of that name. -/
def Lexeme.IsName (l : Lexeme) : Prop :=
  ∃ c cs, l.text = c :: cs ∧ isNameStart c = true ∧ (∀ d ∈ cs, isNamePart d = true)
    ∧ l.token = .ident (String.ofList (c :: cs))

/-- The last lexeme of a text is such a name, and no blank stands behind it. -/
def EndsInName (done : List Char) (ls : List Lexeme) : Prop :=
  ∃ l ∈ ls.getLast?, l.IsName ∧ l.text <:+ done

/-- A text ends in a digit. -/
def EndsInDigit (done : List Char) : Prop := ∃ c ∈ done.getLast?, c.isDigit = true

/-- Such a name begins a text. -/
def BeginsName (rest : List Char) : Prop := ∃ c ∈ rest.head?, isNameStart c = true

/-- The lexer has come to a point without digits: what stands before it is cut into lexemes, no
number among them goes on with it, and no digit comes next. -/
structure LonePoint (s : String) (done : List Char) (ls : List Lexeme) (rest : List Char) :
    Prop where
  split : s.toList = done ++ '.' :: rest
  cut : CutInto done ls ('.' :: rest)
  digitless : ∀ c ∈ rest.head?, c.isDigit = false

variable {done rest : List Char} {ls : List Lexeme}

/-! ## What stands right before a point -/

/-- A text whose last character is no blank ends in its last lexeme. -/
theorem CutInto.ends (h : CutInto done ls rest) {c : Char} (hc : c ∈ done.getLast?)
    (hblank : Text.isBlank c = false) :
    ∃ l ∈ ls.getLast?, l.text <:+ done ∧ l.IsCut (l.text ++ rest) := by
  induction h with
  | nil => cases hc
  | @blank d cs rest ls hd h ih =>
      cases cs with
      | nil =>
          obtain rfl : d = c := Option.some.inj hc
          rw [hd] at hblank
          cases hblank
      | cons e es =>
          rw [List.getLast?_cons_cons] at hc
          obtain ⟨l, hl, hends, hcut⟩ := ih hc
          exact ⟨l, hl, hends.trans (List.suffix_cons d (e :: es)), hcut⟩
  | @lexeme l cs rest ls hl h ih =>
      cases cs with
      | nil =>
          -- what is cut without a character is cut into nothing
          have hnone : ls = [] := by
            cases ls with
            | nil => rfl
            | cons l' ls =>
                have hflat := h.flatten_text
                obtain ⟨_, hl'⟩ := h.isCut l' (.head _)
                rw [List.map_cons, List.flatten_cons, List.filter_nil, List.append_eq_nil_iff]
                  at hflat
                exact absurd hflat.1 hl'.spelled.ne_nil
          subst hnone
          exact ⟨l, rfl, ⟨[], (List.append_nil l.text).symm⟩, hl⟩
      | cons e es =>
          rw [List.getLast?_append_of_ne_nil _ (List.cons_ne_nil e es)] at hc
          obtain ⟨l', hl', hends, hcut⟩ := ih hc
          refine ⟨l', ?_, hends.trans (List.suffix_append l.text (e :: es)), hcut⟩
          have hne : ls ≠ [] := by
            rintro rfl
            cases hl'
          obtain ⟨l₂, ls₂, rfl⟩ := List.exists_cons_of_ne_nil hne
          rw [List.getLast?_cons_cons]
          exact hl'

/-- A name that ends in a name character is one of letters, digits and underscores, for the other
names are symbols; and a number does not end before a point. -/
theorem Lexeme.IsCut.isName {l : Lexeme} (h : l.IsCut (l.text ++ '.' :: rest)) {c : Char}
    (hc : c ∈ l.text) (hpart : isNamePart c = true) : l.IsName := by
  have hrest : l.rest = '.' :: rest := List.append_cancel_left h.split
  have hspelled := h.spelled
  generalize htext : l.text = text at hspelled hc
  generalize htoken : l.token = token at hspelled
  cases hspelled with
  | symbol hd =>
      obtain rfl := List.mem_singleton.mp hc
      have hsymbol := ofSymbol?_eq_some_iff.mpr hd
      rw [ofSymbol?_of_isNamePart hpart] at hsymbol
      cases hsymbol
  | name hd hds => exact ⟨_, _, htext, hd, hds, htoken⟩
  | number hd hv =>
      refine absurd ?_ (h.apart _ htoken)
      rw [hrest]
      rfl

/-- **A name ends before a point** exactly if a name character stands there. -/
theorem endsInName_iff (h : CutInto done ls ('.' :: rest)) :
    EndsInName done ls ↔ ∃ c ∈ done.getLast?, isNamePart c = true := by
  constructor
  · rintro ⟨l, -, ⟨c, cs, htext, hc, hcs, -⟩, init, rfl⟩
    have hne : c :: cs ≠ [] := List.cons_ne_nil c cs
    rw [htext, List.getLast?_append_of_ne_nil _ hne, List.getLast?_eq_some_getLast hne]
    refine ⟨_, rfl, ?_⟩
    rcases List.mem_cons.mp (List.getLast_mem hne) with hlast | hlast
    · rw [hlast]
      exact isNamePart_of_isNameStart hc
    · exact hcs _ hlast
  · rintro ⟨c, hc, hpart⟩
    obtain ⟨l, hl, ⟨init, hinit⟩, hcut⟩ := h.ends hc (isBlank_of_isNamePart hpart)
    refine ⟨l, hl, hcut.isName (c := c) ?_ hpart, init, hinit⟩
    rw [← hinit, List.getLast?_append_of_ne_nil _ hcut.spelled.ne_nil] at hc
    exact List.mem_of_getLast? hc

/-- A name goes on with what it begins with, and with digits. -/
theorem isNamePart_eq (c : Char) : isNamePart c = (isNameStart c || c.isDigit) := by
  rw [isNamePart, isNameStart, Char.isAlphanum, Bool.or_right_comm]

/-- A digit before a point is the last of a name. -/
theorem EndsInDigit.endsInName (hdigit : EndsInDigit done) (h : CutInto done ls ('.' :: rest)) :
    EndsInName done ls := by
  obtain ⟨c, hc, hdigit⟩ := hdigit
  exact (endsInName_iff h).mpr ⟨c, hc, isNamePart_of_isDigit hdigit⟩

/-- What the lexer looks for before a point is there if a name ends there, unless in a digit. -/
theorem isNameStart_before_iff (h : CutInto done ls ('.' :: rest)) :
    (∃ c ∈ done.getLast?, isNameStart c = true) ↔ EndsInName done ls ∧ ¬ EndsInDigit done := by
  rw [endsInName_iff h]
  constructor
  · rintro ⟨c, hc, hstart⟩
    refine ⟨⟨c, hc, isNamePart_of_isNameStart hstart⟩, ?_⟩
    rintro ⟨d, hd, hdigit⟩
    obtain rfl : c = d := Option.some.inj (hc.symm.trans hd)
    rw [not_isNameStart_of_isDigit hdigit] at hstart
    cases hstart
  · rintro ⟨⟨c, hc, hpart⟩, hdigit⟩
    rw [isNamePart_eq, Bool.or_eq_true] at hpart
    exact ⟨c, hc, hpart.resolve_right fun hd => hdigit ⟨c, hc, hd⟩⟩

/-! ## What the lexer says of a lone point -/

namespace LonePoint

variable {s : String}

theorem nextToName_iff (h : LonePoint s done ls rest) :
    NextToName done.getLast? rest.head?
      ↔ (EndsInName done ls ∧ ¬ EndsInDigit done) ∨ BeginsName rest := by
  rw [NextToName, isNameStart_before_iff h.cut, or_comm]
  rfl

/-- The text is refused for the point: either way, as the names next to it tell. -/
theorem exists_fault (h : LonePoint s done ls rest) :
    ∃ f, scan s = .error f ∧ (f = .memberAccess ∨ f = .strayPoint)
      ∧ (f.kind = .unsafeExpression
        ↔ (EndsInName done ls ∧ ¬ EndsInDigit done) ∨ BeginsName rest) := by
  rw [← h.nextToName_iff]
  by_cases hname : NextToName done.getLast? rest.head?
  · exact ⟨.memberAccess, scan_of_blames h.split h.cut (.member h.digitless hname), .inl rfl,
      iff_of_true rfl hname⟩
  · exact ⟨.strayPoint, scan_of_blames h.split h.cut (.stray h.digitless hname), .inr rfl,
      iff_of_false (by decide) hname⟩

end LonePoint

/-- A text that is refused for a point has come to a lone one. -/
theorem exists_lonePoint {s : String} {f : Fault} (h : scan s = .error f)
    (hf : f = .memberAccess ∨ f = .strayPoint) : ∃ done ls rest, LonePoint s done ls rest := by
  rcases scan_cases s with ⟨ls, -, hscan⟩ | ⟨done, ls, rest, f', hs, hcut, hblames, hscan⟩
  · rw [hscan] at h
    cases h
  · obtain rfl : f' = f := Except.error.inj (hscan.symm.trans h)
    cases hblames with
    | foreign _ => simp at hf
    | member hdigit _ => exact ⟨done, ls, _, hs, hcut, hdigit⟩
    | stray hdigit _ => exact ⟨done, ls, _, hs, hcut, hdigit⟩
    | second _ _ _ => simp at hf

/-- A name with a point behind it and nothing else comes to a lone point. -/
theorem exists_lonePoint_of_name {s : String} {c : Char} {cs : List Char}
    (hs : s.toList = c :: cs ++ ['.']) (hc : isNameStart c = true)
    (hcs : ∀ d ∈ cs, isNamePart d = true) :
    ∃ ls, LonePoint s (c :: cs) ls [] ∧ EndsInName (c :: cs) ls := by
  let l : Lexeme := ⟨.ident (String.ofList (c :: cs)), c :: cs, ['.']⟩
  have hstop : ∀ d ∈ ['.'].head?, isNamePart d = false := by simp [isNamePart]
  have hcut : Lexeme.IsCut _ (c :: (cs ++ ['.'])) := isCut_name hc
  rw [takeWhile_append_of_stop hcs hstop, dropWhile_append_of_stop hcs hstop] at hcut
  have hall : CutInto (l.text ++ []) [l] ['.'] := .lexeme hcut .nil
  rw [List.append_nil] at hall
  exact ⟨[l], ⟨hs, hall, by simp⟩, l, rfl, ⟨c, cs, rfl, hc, hcs, rfl⟩, List.suffix_refl _⟩

/-- **A lone point.** The lexer refuses a text for a point exactly if it comes to a lone one there.
It takes the point for the access to a member if a name begins right behind it, or if one ends right
before it but not in a digit. So it knows every point next to a name, unless a digit stands right
before it, which is always the end of a name, and no name begins behind: such a point passes for a
slip. -/
theorem scan_lonePoint (s : String) :
    (scan s = .error .memberAccess ∨ scan s = .error .strayPoint
      ↔ ∃ done ls rest, LonePoint s done ls rest)
    ∧ ∀ done ls rest, LonePoint s done ls rest →
      (EndsInDigit done → EndsInName done ls)
      ∧ ∃ f, scan s = .error f ∧ (f.kind = .unsafeExpression ∨ f.kind = .evaluationError)
        ∧ (f.kind = .unsafeExpression
          ↔ (EndsInName done ls ∧ ¬ EndsInDigit done) ∨ BeginsName rest)
        ∧ ((f.kind = .unsafeExpression ↔ EndsInName done ls ∨ BeginsName rest)
          ↔ (EndsInDigit done → BeginsName rest)) := by
  refine ⟨⟨fun h => ?_, fun ⟨done, ls, rest, h⟩ => ?_⟩, fun done ls rest h => ?_⟩
  · rcases h with h | h
    · exact exists_lonePoint h (.inl rfl)
    · exact exists_lonePoint h (.inr rfl)
  · obtain ⟨f, hscan, rfl | rfl, -⟩ := h.exists_fault
    · exact .inl hscan
    · exact .inr hscan
  · obtain ⟨f, hscan, hf, hkind⟩ := h.exists_fault
    have hdigit : EndsInDigit done → EndsInName done ls := fun hd => hd.endsInName h.cut
    refine ⟨hdigit, f, hscan, ?_, hkind, ?_⟩
    · rcases hf with rfl | rfl
      · exact .inl rfl
      · exact .inr rfl
    · rw [hkind]
      constructor
      · intro h hd
        rcases h.mpr (.inl (hdigit hd)) with ⟨-, hno⟩ | hbegins
        · exact absurd hd hno
        · exact hbegins
      · intro h
        refine ⟨fun hx => hx.imp_left And.left, fun hx => ?_⟩
        rcases hx with hname | hbegins
        · by_cases hd : EndsInDigit done
          · exact .inr (h hd)
          · exact .inl ⟨hname, hd⟩
        · exact .inr hbegins

/-- A name that ends in an underscore is seen before the point. -/
theorem scan_lonePoint_of_underscore :
    ∃ done ls, LonePoint "x1_." done ls [] ∧ EndsInName done ls ∧ ¬ EndsInDigit done
      ∧ ∃ f, scan "x1_." = .error f ∧ f.kind = .unsafeExpression := by
  have hs : "x1_.".toList = 'x' :: ['1', '_'] ++ ['.'] := rfl
  have hpart : ∀ d ∈ ['1', '_'], isNamePart d = true := List.all_eq_true.mp rfl
  obtain ⟨ls, hpoint, hname⟩ := exists_lonePoint_of_name hs rfl hpart
  have hdigit : ¬ EndsInDigit ['x', '1', '_'] := by simp [EndsInDigit]
  obtain ⟨-, f, hscan, -, hkind, -⟩ := (scan_lonePoint "x1_.").2 _ _ _ hpoint
  exact ⟨_, ls, hpoint, hname, hdigit, f, hscan, hkind.mpr (.inl ⟨hname, hdigit⟩)⟩

/-- A name that ends in a digit is not seen before the point. -/
theorem scan_point_after_digit :
    ∃ done ls, LonePoint "x1." done ls [] ∧ EndsInName done ls
      ∧ scan "x1." = .error .strayPoint ∧ Fault.strayPoint.kind = .evaluationError
      ∧ scan "x." = .error .memberAccess := by
  have hs : "x1.".toList = 'x' :: ['1'] ++ ['.'] := rfl
  have hpart : ∀ d ∈ ['1'], isNamePart d = true := List.all_eq_true.mp rfl
  obtain ⟨ls, hpoint, hname⟩ := exists_lonePoint_of_name hs rfl hpart
  exact ⟨_, ls, hpoint, hname, by decide +kernel, rfl, by decide +kernel⟩

end Token

end Reckon
