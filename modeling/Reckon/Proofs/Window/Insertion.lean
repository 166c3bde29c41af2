import Reckon.Proofs.Token.Adjacent
import Reckon.Proofs.Window.Rows
import Reckon.Window

/-!
# Typing by button

A button adds a name or the beginning of a call to the entry. Nothing is multiplied without a `*`,
so the button puts one where the name would follow an operand; it looks for a letter, a digit, an
underscore or a closing parenthesis at the end of the entry.

An expression can end in two other ways (`Spells.last`): in the point of a number without a
fraction, and in the sign for pi. There the button sees no operand, and the name that it adds stands
right after one. Neither ending runs on into a letter, so the lexer finds the tokens that were
meant, but for the `*`, and the reader refuses the name (`Listing.ofTokens_second`).
-/

namespace Reckon

/-! ## One more factor -/

/-- An expression with one more atom at its end as a factor is one. -/
theorem Phrase.exists_times (q : Phrase .sum) (a : Phrase .atom) :
    ∃ q' : Phrase .sum, q'.tokens = q.tokens ++ .op .mul :: a.tokens := by
  have hscales : BinOp.mul.rank = .product := rfl
  obtain ⟨q', hq'⟩ := q.exists_scaled hscales (.ofPower (.ofAtom a))
  exact ⟨q', by rw [hq', tokens, tokens]⟩

/-- Without a `*` the reader takes no name after an expression. -/
theorem Listing.ofTokens_second (q : Phrase .sum) (x : String) (us : List Token) :
    Listing.ofTokens (q.tokens ++ .ident x :: us) = .error (.unexpectedOperand (.ident x)) := by
  obtain ⟨r, hr, hs⟩ := Reading.accepts_phrase q Reading.start (.ident x :: us) (.inl rfl)
    (fun _ => Reading.guards_nil _) (by simp)
  have hread : r.readAll (.ident x :: us) = .error (.unexpectedOperand (.ident x)) := by
    simp [Reading.readAll, Reading.read, Reading.checkOperand, hs.last, Except.bind]
  rw [Listing.ofTokens, hr, hread]
  rfl

/-! ## How an expression ends -/

/-- The tokens that an expression can end in. -/
inductive Token.Ends : Token → Prop
  | num (v : Float) : Ends (.num v)
  | name {x : String} (free : Builtin.ofName? x = none) : Ends (.ident x)
  | rpar : Ends .rpar

/-- The last of the tokens is one that an expression can end in. -/
def Token.EndsWell (ts : List Token) : Prop := ∃ init t, ts = init ++ [t] ∧ t.Ends

theorem Token.Ends.endsWell {t : Token} (h : t.Ends) (init : List Token) : EndsWell (init ++ [t]) :=
  ⟨init, t, rfl, h⟩

theorem Token.EndsWell.behind {us : List Token} (h : EndsWell us) (ts : List Token) (t : Token) :
    EndsWell (ts ++ t :: us) := by
  obtain ⟨init, last, rfl, hlast⟩ := h
  exact ⟨ts ++ t :: init, last, by rw [List.append_assoc, List.cons_append], hlast⟩

theorem Phrase.endsWell {k : Rank} (q : Phrase k) : Token.EndsWell q.tokens := by
  cases q with
  | num v => exact (Token.Ends.num v).endsWell []
  | name x free => exact (Token.Ends.name free).endsWell []
  | group s => exact Token.Ends.rpar.endsWell (.lpar :: s.tokens)
  | call f args _ => exact Token.Ends.rpar.endsWell (.ident f.name :: .lpar :: args.tokens)
  | ofAtom a => exact a.endsWell
  | pow a b => exact b.endsWell.behind a.tokens (.op .pow)
  | ofPower p => exact p.endsWell
  | plus p => exact p.endsWell.behind [] (.op .add)
  | minus p => exact p.endsWell.behind [] (.op .sub)
  | ofSigned s => exact s.endsWell
  | mul op _ p s => exact s.endsWell.behind p.tokens (.op op)
  | ofProduct p => exact p.endsWell
  | add op _ s p => exact p.endsWell.behind s.tokens (.op op)

namespace Token

/-- The characters that an expression can end in. The sign for a root is none of them, because a
root is called. -/
theorem Spells.last {cs : List Char} {t : Token} (h : Spells cs t) (ht : t.Ends) {c : Char}
    (hc : c ∈ cs) : isNamePart c = true ∨ c = ')' ∨ c = '.' ∨ c = 'π' := by
  rcases h.parts with ⟨d, rfl, hd⟩ | hname | hnumber
  · obtain rfl := List.mem_singleton.mp hc
    right
    have hsymbol := ofSymbol?_eq_some_iff.mp hd
    cases ht with
    | num v => exact absurd hd (ofSymbol?_ne_num c v)
    | name free =>
        simp only [symbols, List.mem_cons, Prod.mk.injEq, reduceCtorEq, and_false, false_or,
          ident.injEq, List.not_mem_nil, or_false] at hsymbol
        rcases hsymbol with ⟨rfl, -⟩ | ⟨-, rfl⟩
        · exact .inr (.inr rfl)
        · exact absurd free (by decide)
    | rpar =>
        simp only [symbols, List.mem_cons, Prod.mk.injEq, reduceCtorEq, and_false, and_true,
          false_or, or_false, List.not_mem_nil] at hsymbol
        exact .inl hsymbol
  · exact .inl (hname c hc)
  · rcases hnumber c hc with hdigit | hpoint
    · exact .inl (isNamePart_of_isDigit hdigit)
    · exact .inr (.inr (.inl hpoint))

/-- The last character of a text belongs to the last of its tokens. -/
theorem exists_spells_last {s : String} {ts : List Token} {t : Token}
    (h : scan (Text.compact s) = .ok (ts ++ [t])) :
    ∃ cs c, Spells cs t ∧ c ∈ cs ∧ (Text.compact s).toList.getLast? = some c := by
  rcases scan_cases (Text.compact s) with ⟨ls, hcut, hls⟩ | ⟨_, _, _, _, -, -, -, hf⟩
  · have hmap : ls.map (·.token) = ts ++ [t] := Except.ok.inj (hls.symm.trans h)
    obtain ⟨init, last, rfl, -, hlast⟩ := List.map_eq_append_iff.mp hmap
    obtain ⟨l, rfl, rfl⟩ := List.map_eq_singleton_iff.mp hlast
    obtain ⟨_, hl⟩ := hcut.isCut l (by simp)
    have hflat := hcut.flatten_text
    have hself : (Text.compact s).toList.filter (fun c => !Text.isBlank c)
        = (Text.compact s).toList := by
      rw [Text.toList_compact, List.filter_filter]
      simp
    rw [hself, List.map_append, List.flatten_append, List.map_singleton, List.flatten_singleton]
      at hflat
    refine ⟨l.text, l.text.getLast hl.spelled.ne_nil, hl.spelled, List.getLast_mem _, ?_⟩
    rw [← hflat, List.getLast?_append_of_ne_nil _ hl.spelled.ne_nil,
      List.getLast?_eq_some_getLast hl.spelled.ne_nil]
  · rw [hf] at h
    cases h

end Token

namespace Window

variable {entry : String} {p : Parsed}

/-- The two endings of an expression that the buttons do not take for the end of an operand. -/
def EndsUnseen (entry : String) : Prop :=
  (Text.compact entry).toList.getLast? = some '.' ∨ (Text.compact entry).toList.getLast? = some 'π'

instance : DecidablePred EndsUnseen := fun _ => inferInstanceAs (Decidable (_ ∨ _))

/-- The buttons look at the last character that is no blank. -/
theorem endsInOperand_eq (entry : String) : endsInOperand entry
    = (Text.compact entry).toList.getLast?.any fun c => Token.isNamePart c || c == ')' := by
  rw [endsInOperand, ← List.head?_filter, List.filter_reverse, List.head?_reverse,
    Text.toList_compact]

/-- **What the buttons see** of an expression is all but the two endings. -/
theorem endsInOperand_iff (h : Parsed.ofText (Text.compact entry) = .ok p) :
    endsInOperand entry = true ↔ ¬ EndsUnseen entry := by
  obtain ⟨hscan, q, hq, -, -⟩ := Parsed.stages h
  obtain ⟨ts, t, htokens, ht⟩ := q.endsWell
  rw [← hq, htokens] at hscan
  obtain ⟨cs, c, hspells, hc, hlast⟩ := Token.exists_spells_last hscan
  rw [endsInOperand_eq, EndsUnseen, hlast, Option.any_some, Option.some.injEq, Option.some.injEq]
  rcases hspells.last ht hc with hpart | rfl | rfl | rfl
  · refine iff_of_true (by rw [hpart, Bool.true_or]) ?_
    rintro (rfl | rfl)
    · exact absurd hpart (by decide)
    · exact absurd hpart (by decide)
  · decide
  · decide
  · decide

/-! ## What the buttons make -/

/-- After an ending that is not seen, no letter goes on with the last lexeme. -/
theorem EndsUnseen.parted (h : EndsUnseen entry) {rest : List Char}
    (hrest : ∀ d ∈ rest.head?, Token.isNameStart d = true) :
    Token.Parted (Text.compact entry).toList rest := by
  intro c hc d hd hjoins
  have hd := hrest d hd
  rcases h with h | h
  · obtain rfl : '.' = c := Option.some.inj (h.symm.trans hc)
    rcases hjoins with ⟨hjoins, -⟩ | ⟨-, hjoins⟩
    · exact absurd hjoins (by decide)
    · rw [Token.not_isNameStart_of_isNumberStart hjoins] at hd
      cases hd
  · obtain rfl : 'π' = c := Option.some.inj (h.symm.trans hc)
    rcases hjoins with ⟨hjoins, -⟩ | ⟨hjoins, -⟩
    · exact absurd hjoins (by decide)
    · exact absurd hjoins (by decide)

section

variable {w : Window} {s x : String} {us : List Token} {a : Phrase .atom}

/-- If the end of an expression is seen, an atom that a button adds becomes one more factor. -/
theorem ofText_insertWord_seen (h : Parsed.ofText (Text.compact w.entry) = .ok p)
    (hs : Token.Cuts s a.tokens) (hseen : ¬ EndsUnseen w.entry) :
    (Parsed.ofText (Text.compact (w.insertWord s).entry)).map (·.tokens)
      = .ok (p.tokens ++ .op .mul :: a.tokens) := by
  obtain ⟨hscan, q, hq, -, -⟩ := Parsed.stages h
  have hentry : (w.insertWord s).entry = w.entry ++ "*" ++ s :=
    congrArg (· ++ s) (if_pos ((endsInOperand_iff h).mpr hseen))
  have hproduct := ((Token.cuts_of_scan hscan).join (m := "*") rfl rfl hs).scan
  obtain ⟨q', hq'⟩ := q.exists_times a
  rw [← hq, ← hq'] at hproduct
  rw [hentry, Parsed.ofText_eq hproduct, ← hq, ← hq']
  rfl

/-- If it is not, the name at the front of the atom is refused. -/
theorem ofText_insertWord_unseen (h : Parsed.ofText (Text.compact w.entry) = .ok p)
    (hs : Token.Cuts s (.ident x :: us))
    (hletter : ∀ c ∈ (Text.compact s).toList.head?, Token.isNameStart c = true)
    (hunseen : EndsUnseen w.entry) :
    Parsed.ofText (Text.compact (w.insertWord s).entry)
      = .error (.unexpectedOperand (.ident x)) := by
  obtain ⟨hscan, q, hq, -, -⟩ := Parsed.stages h
  have hentry : (w.insertWord s).entry = w.entry ++ s :=
    congrArg (· ++ s) (if_neg fun hseen => (endsInOperand_iff h).mp hseen hunseen)
  have hboth := Token.scan_append_of_parted hscan hs (hunseen.parted hletter)
  rw [← hq] at hboth
  rw [hentry, Parsed.ofText_eq_error_iff]
  exact .inr ⟨_, hboth, Listing.ofTokens_second q x us⟩

/-- What a button makes of an expression, with all that is typed behind. -/
theorem ofText_insertWord (h : Parsed.ofText (Text.compact w.entry) = .ok p)
    (hs : Token.Cuts s a.tokens) (ha : a.tokens = .ident x :: us)
    (hletter : ∀ c ∈ (Text.compact s).toList.head?, Token.isNameStart c = true) :
    ((Parsed.ofText (Text.compact (w.insertWord s).entry)).map (·.tokens)
        = .ok (p.tokens ++ .op .mul :: a.tokens) ↔ ¬ EndsUnseen w.entry)
    ∧ (EndsUnseen w.entry → Parsed.ofText (Text.compact (w.insertWord s).entry)
        = .error (.unexpectedOperand (.ident x))) := by
  have hrefused := ofText_insertWord_unseen h (ha ▸ hs) hletter
  refine ⟨⟨fun hread hunseen => ?_, ofText_insertWord_seen h hs⟩, hrefused⟩
  rw [hrefused hunseen] at hread
  cases hread

end

/-- A name of the lexer that is spelled in letters stands at the front of what begins with it. -/
theorem head_compact_name {x : String} (hx : Row.isName x = true) (r : String) :
    ∀ c ∈ (Text.compact (x ++ r)).toList.head?, Token.isNameStart c = true := by
  obtain ⟨hname, hpi⟩ := Row.isName_iff.mp hx
  rcases hname with rfl | ⟨c, cs, rfl, hc, -⟩
  · exact absurd rfl hpi
  · intro d hd
    have hblank := Token.isBlank_of_isNamePart (Token.isNamePart_of_isNameStart hc)
    rw [Text.toList_compact, String.toList_append, String.toList_ofList, List.cons_append,
      List.filter_cons_of_pos (by rw [hblank, Bool.not_false])] at hd
    obtain rfl : c = d := Option.some.inj hd
    exact hc

/-- **What the buttons make of an expression.** A button for a constant, or one for a function of
one argument with the argument and the closing parenthesis typed behind, multiplies an expression by
what it adds, exactly if the expression does not end in the point of a number or in the sign for pi.
If it does, the name that is added is refused. -/
theorem insertion_multiplies (w : Window) (p : Parsed)
    (h : Parsed.ofText (Text.compact w.entry) = .ok p) :
    (∀ x ∈ ["pi", "e"],
      ((Parsed.ofText (Text.compact (w.insertWord x).entry)).map (·.tokens)
          = .ok (p.tokens ++ [.op .mul, .ident x]) ↔ ¬ EndsUnseen w.entry)
      ∧ (EndsUnseen w.entry → Parsed.ofText (Text.compact (w.insertWord x).entry)
          = .error (.unexpectedOperand (.ident x))))
    ∧ ∀ f : Builtin, f.arity.accepts 1 = true → ∀ a pa, Parsed.ofText (Text.compact a) = .ok pa →
      ((Parsed.ofText (Text.compact ((w.insertCall f.name).entry ++ a ++ ")"))).map (·.tokens)
          = .ok (p.tokens ++ [.op .mul, .ident f.name, .lpar] ++ pa.tokens ++ [.rpar])
        ↔ ¬ EndsUnseen w.entry)
      ∧ (EndsUnseen w.entry →
        Parsed.ofText (Text.compact ((w.insertCall f.name).entry ++ a ++ ")"))
          = .error (.unexpectedOperand (.ident f.name))) := by
  constructor
  · intro x hx
    have hall : ∀ x ∈ ["pi", "e"], Row.isName x = true ∧ Builtin.ofName? x = none := by decide
    obtain ⟨hname, hfree⟩ := hall x hx
    have hcuts : Token.Cuts x (Phrase.name x hfree).tokens :=
      Token.cuts_name (Row.isName_iff.mp hname).1
    have hletter := head_compact_name hname ""
    rw [String.append_empty] at hletter
    exact ofText_insertWord h hcuts rfl hletter
  · intro f hf a pa hpa
    obtain ⟨hscan, qa, hqa, -, -⟩ := Parsed.stages hpa
    have hname : Row.isName f.name = true := by cases f <;> rfl
    -- the call is one word more, only typed in pieces
    have hentry : (w.insertCall f.name).entry ++ a ++ ")"
        = (w.insertWord (f.name ++ "(" ++ (a ++ ")" ++ ""))).entry := by
      simp only [insertCall, insertWord, String.append_assoc, String.append_empty]
    have htokens : (Phrase.call f (.one qa) hf).tokens
        = [.ident f.name] ++ .lpar :: (pa.tokens ++ .rpar :: []) := by
      rw [Phrase.tokens, Arguments.tokens, hqa]
      rfl
    have hclosed := (Token.cuts_of_scan hscan).join (m := ")") rfl rfl Token.cuts_nil
    have hcall := (Token.cuts_name (Token.isName_name f)).join (m := "(") rfl rfl hclosed
    rw [← htokens] at hcall
    have hletter := head_compact_name hname ("(" ++ (a ++ ")" ++ ""))
    rw [← String.append_assoc] at hletter
    have hread := ofText_insertWord h hcall htokens hletter
    rw [htokens, ← hentry] at hread
    simpa only [List.append_assoc, List.cons_append, List.nil_append] using hread

/-- After a group with a blank behind it, and after the point of a number. -/
theorem insertion_multiplies_after_group :
    let w : Window := { fresh with entry := "(2) " }
    let u : Window := { fresh with entry := "2." }
    (∃ p, Parsed.ofText (Text.compact w.entry) = .ok p ∧ p.tokens = [.lpar, .num 2, .rpar]
      ∧ "pi" ∈ ["pi", "e"] ∧ ¬ EndsUnseen w.entry
      ∧ (Parsed.ofText (Text.compact (w.insertWord "pi").entry)).map (·.tokens)
        = .ok (p.tokens ++ [.op .mul, .ident "pi"])
      ∧ ∃ pa, Parsed.ofText (Text.compact " 9") = .ok pa ∧ Builtin.sqrt.arity.accepts 1 = true
        ∧ (Parsed.ofText (Text.compact ((w.insertCall "sqrt").entry ++ " 9" ++ ")"))).map (·.tokens)
          = .ok (p.tokens ++ [.op .mul, .ident "sqrt", .lpar] ++ pa.tokens ++ [.rpar]))
    ∧ ∃ p, Parsed.ofText (Text.compact u.entry) = .ok p ∧ EndsUnseen u.entry
      ∧ Parsed.ofText (Text.compact (u.insertWord "pi").entry)
        = .error (.unexpectedOperand (.ident "pi")) := by
  intro w u
  obtain ⟨p, hp, htokens⟩ := exists_ok_of_any (x := Parsed.ofText (Text.compact w.entry))
    (p := fun p => decide (p.tokens = [.lpar, .num 2, .rpar])) (by decide +kernel)
  obtain ⟨p₂, hp₂, -⟩ := exists_ok_of_any (x := Parsed.ofText (Text.compact u.entry))
    (p := fun _ => true) (by decide +kernel)
  obtain ⟨pa, hpa, -⟩ := exists_ok_of_any (x := Parsed.ofText (Text.compact " 9"))
    (p := fun _ => true) (by decide +kernel)
  have hseen : ¬ EndsUnseen w.entry := by decide +kernel
  have hunseen : EndsUnseen u.entry := by decide +kernel
  have hpi : "pi" ∈ ["pi", "e"] := by decide
  obtain ⟨hword, hcall⟩ := insertion_multiplies w p hp
  obtain ⟨hword₂, -⟩ := insertion_multiplies u p₂ hp₂
  exact ⟨⟨p, hp, of_decide_eq_true htokens, hpi, hseen, (hword "pi" hpi).1.mpr hseen, pa, hpa, rfl,
    (hcall .sqrt rfl " 9" pa hpa).1.mpr hseen⟩, p₂, hp₂, hunseen, (hword₂ "pi" hpi).2 hunseen⟩

/-- The two endings at work. Both entries are expressions, and the buttons for a constant and for a
function put their names right behind them. -/
theorem insertion_after_point :
    let w : Window := { fresh with entry := "2." }
    let u : Window := { fresh with entry := "π" }
    ((Parsed.ofText (Text.compact w.entry)).map (·.tokens) = .ok [.num 2]
      ∧ (w.insertWord "pi").entry = "2.pi"
      ∧ (Parsed.ofText (Text.compact "2.pi")).map (·.tokens)
        = .error (.unexpectedOperand (.ident "pi")))
    ∧ (Parsed.ofText (Text.compact u.entry)).map (·.tokens) = .ok [.ident "π"]
      ∧ (u.insertCall "sqrt").entry ++ "9" ++ ")" = "πsqrt(9)"
      ∧ (Parsed.ofText (Text.compact "πsqrt(9)")).map (·.tokens)
        = .error (.unexpectedOperand (.ident "sqrt")) := by
  decide +kernel

end Window

end Reckon
