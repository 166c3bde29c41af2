import Reckon.Proofs.Token.Lexeme

/-!
# A whole text is cut into lexemes

`CutInto` passes over blanks and cuts off lexemes, one after the other. Every text is cut so up to
its end or up to where something is to blame (`exists_cut`), and the lexer goes along with any such
cut (`scanFrom_cut`). Together they say what the lexer answers for every text (`scan_exact`); that no
text has two answers needs no proof of its own, since the lexer is a function.

The lexer looks at the character before a point, blanks included. So both facts are about any
character before the text, and the last one that was passed takes its place.
-/

namespace Reckon

namespace Token

/-- In front of the rest of a text, what stands before the rest is cut into lexemes, with blanks
between them. -/
inductive CutInto : List Char → List Lexeme → List Char → Prop
  | nil {rest : List Char} : CutInto [] [] rest
  | blank {c : Char} {cs rest : List Char} {ls : List Lexeme} (hc : Text.isBlank c = true)
      (h : CutInto cs ls rest) : CutInto (c :: cs) ls rest
  | lexeme {l : Lexeme} {cs rest : List Char} {ls : List Lexeme}
      (hl : l.IsCut (l.text ++ (cs ++ rest))) (h : CutInto cs ls rest) :
      CutInto (l.text ++ cs) (l :: ls) rest

variable {cs rest : List Char} {ls : List Lexeme}

/-! ## Nothing is lost -/

/-- The lexemes hold all that is not blank, in order. -/
theorem CutInto.flatten_text (h : CutInto cs ls rest) :
    (ls.map (·.text)).flatten = cs.filter fun c => !Text.isBlank c := by
  induction h with
  | nil => rfl
  | blank hc _ ih => rw [ih, List.filter_cons_of_neg (by simp [hc])]
  | @lexeme l cs rest ls hl _ ih =>
      have hself : l.text.filter (fun c => !Text.isBlank c) = l.text := by
        rw [List.filter_eq_self]
        intro c hc
        rw [hl.spelled.isBlank c hc, Bool.not_false]
      rw [List.map_cons, List.flatten_cons, ih, List.filter_append, hself]

/-- Each lexeme has been cut off some text. -/
theorem CutInto.isCut (h : CutInto cs ls rest) : ∀ l ∈ ls, ∃ text, l.IsCut text := by
  induction h with
  | nil => intro l hl; cases hl
  | blank _ _ ih => exact ih
  | lexeme hl _ ih =>
      intro l' hl'
      rcases List.mem_cons.1 hl' with rfl | hl'
      · exact ⟨_, hl⟩
      · exact ih l' hl'

/-- What is cut is made of characters that may stand in an expression. -/
theorem CutInto.allowed (h : CutInto cs ls rest) : ∀ c ∈ cs, Allowed c := by
  induction h with
  | nil => intro c hc; cases hc
  | blank hblank _ ih =>
      intro c hc
      rcases List.mem_cons.1 hc with rfl | hc
      · exact .inl hblank
      · exact ih c hc
  | lexeme hl _ ih =>
      intro c hc
      rcases List.mem_append.1 hc with hc | hc
      · exact hl.spelled.allowed c hc
      · exact ih c hc

/-! ## The lexer goes along -/

theorem getLast?_append_or {xs ys : List Char} (before : Option Char) (hne : xs ≠ []) :
    (xs ++ ys).getLast?.or before = ys.getLast?.or xs.getLast? := by
  rw [List.getLast?_append, Option.or_assoc, List.getLast?_eq_some_getLast hne, Option.some_or]

theorem getLast?_cons_or (c : Char) (cs : List Char) (before : Option Char) :
    (c :: cs).getLast?.or before = cs.getLast?.or (some c) :=
  getLast?_append_or before (List.cons_ne_nil c [])

theorem scanFrom_blank {c : Char} (hc : Text.isBlank c = true) (before : Option Char)
    (found : List Token) (cs : List Char) :
    scanFrom before found (c :: cs) = scanFrom (some c) found cs := by
  rw [scanFrom, if_pos hc]

theorem scanFrom_of_blames {before : Option Char} {f : Fault} (h : Blames before cs f)
    (found : List Token) : scanFrom before found cs = .error f := by
  obtain ⟨c, cs, rfl, hc⟩ := h.head
  have hl := (lexeme_eq_error_iff hc).2 h
  rw [scanFrom, if_neg (by simp [hc])]
  split
  · rename_i f' hf'
    rw [Except.error.inj (hf'.symm.trans hl)]
  · rename_i l hl'
    rw [hl] at hl'
    cases hl'

/-- **The lexer passes over what is cut**, finds its tokens and goes on with the rest. -/
theorem scanFrom_cut (h : CutInto cs ls rest) (before : Option Char) (found : List Token) :
    scanFrom before found (cs ++ rest)
      = scanFrom (cs.getLast?.or before) ((ls.map (·.token)).reverse ++ found) rest := by
  induction h generalizing before found with
  | nil => rfl
  | @blank c cs rest ls hc _ ih =>
      rw [List.cons_append, scanFrom_blank hc, ih, getLast?_cons_or]
  | @lexeme l cs rest ls hl _ ih =>
      have hrest : l.rest = cs ++ rest := List.append_cancel_left hl.split
      rw [List.append_assoc, getLast?_append_or before hl.spelled.ne_nil]
      obtain ⟨c, ds, hds⟩ := List.exists_cons_of_ne_nil hl.spelled.ne_nil
      have hblank := hl.spelled.isBlank c (hds ▸ .head _)
      have hcut := hl
      rw [hds, List.cons_append] at hcut
      rw [hds, List.cons_append, scanFrom_cons hblank ((lexeme_eq_ok_iff hblank).2 hcut), hrest, ih,
        hds]
      simp

/-! ## Every text is cut as far as it goes -/

/-- **A text is cut up to its end or up to something that is to blame.** -/
theorem exists_cut (before : Option Char) (cs : List Char) :
    ∃ done ls rest, cs = done ++ rest ∧ CutInto done ls rest
      ∧ (rest = [] ∨ ∃ f, Blames (done.getLast?.or before) rest f) := by
  -- each lexeme leaves less text, since none is empty
  induction hn : cs.length using Nat.strong_induction_on generalizing before cs with
  | _ n ih =>
    cases cs with
    | nil => exact ⟨[], [], [], rfl, .nil, .inl rfl⟩
    | cons c cs =>
      by_cases hblank : Text.isBlank c = true
      · obtain ⟨done, ls, rest, rfl, hcut, hend⟩ :=
          ih cs.length (by simp at hn; omega) (some c) cs rfl
        refine ⟨c :: done, ls, rest, rfl, .blank hblank hcut, hend.imp_right ?_⟩
        rintro ⟨f, hf⟩
        rw [getLast?_cons_or]
        exact ⟨f, hf⟩
      · rw [Bool.not_eq_true] at hblank
        cases hl : lexeme before c cs with
        | error f =>
            exact ⟨[], [], c :: cs, rfl, .nil, .inr ⟨f, blames_of_lexeme hblank hl⟩⟩
        | ok l =>
            have happend := lexeme_append hl
            have hl' := isCut_of_lexeme hblank hl
            obtain ⟨done, ls, rest, hrest, hcut, hend⟩ :=
              ih l.rest.length (hn ▸ length_rest_lt hl) l.text.getLast? l.rest rfl
            rw [hrest] at happend
            refine ⟨l.text ++ done, l :: ls, rest, ?_, .lexeme (happend.symm ▸ hl') hcut,
              hend.imp_right ?_⟩
            · rw [← happend, List.append_assoc]
            · rintro ⟨f, hf⟩
              rw [getLast?_append_or before hl'.spelled.ne_nil]
              exact ⟨f, hf⟩

/-! ## What the lexer answers -/

theorem scan_cut {s : String} (h : CutInto s.toList ls []) :
    scan s = .ok (ls.map (·.token)) := by
  have hrun := scanFrom_cut h none []
  rw [List.append_nil] at hrun
  rw [scan, hrun, scanFrom, List.append_nil, List.reverse_reverse]

theorem scan_of_blames {s : String} {f : Fault} (hs : s.toList = cs ++ rest)
    (h : CutInto cs ls rest) (hf : Blames cs.getLast? rest f) : scan s = .error f := by
  rw [scan, hs, scanFrom_cut h, Option.or_none, scanFrom_of_blames hf]

/-- For every text, the lexer finds the tokens of all its lexemes, or says what is wrong at the first
place off which no lexeme can be cut. -/
theorem scan_cases (s : String) :
    (∃ ls, CutInto s.toList ls [] ∧ scan s = .ok (ls.map (·.token)))
    ∨ ∃ done ls rest f, s.toList = done ++ rest ∧ CutInto done ls rest
      ∧ Blames done.getLast? rest f ∧ scan s = .error f := by
  obtain ⟨done, ls, rest, hs, hcut, hend⟩ := exists_cut none s.toList
  rw [Option.or_none] at hend
  rcases hend with rfl | ⟨f, hf⟩
  · left
    rw [List.append_nil] at hs
    rw [← hs] at hcut
    exact ⟨ls, hcut, scan_cut hcut⟩
  · exact .inr ⟨done, ls, rest, f, hs, hcut, hf, scan_of_blames hs hcut hf⟩

/-- **The lexer is exact.** It finds tokens for the texts that are cut into lexemes from end to end,
and finds the tokens of these lexemes. It refuses all others, for what is wrong at the first place
off which no lexeme can be cut. The lexemes are all of the text but its blanks, none is empty, and
the text of a number is one that the reader of numerals accepts, with the same value. -/
theorem scan_exact (s : String) :
    (∀ ts, scan s = .ok ts ↔ ∃ ls, CutInto s.toList ls [] ∧ ls.map (·.token) = ts)
    ∧ (∀ f, scan s = .error f ↔ ∃ done ls rest, s.toList = done ++ rest ∧ CutInto done ls rest
        ∧ (∀ l : Lexeme, ¬ l.IsCut rest) ∧ Blames done.getLast? rest f)
    ∧ (∀ ls, CutInto s.toList ls [] →
        (ls.map (·.text)).flatten = s.toList.filter (fun c => !Text.isBlank c)
        ∧ ∀ l ∈ ls, l.text ≠ []
          ∧ ∀ v, l.token = .num v → Number.ofText? (String.ofList l.text) = some v)
    ∧ ∀ f, scan s = .error f → f.kind = .unsafeExpression ∨ f.kind = .evaluationError := by
  refine ⟨fun ts => ⟨fun h => ?_, ?_⟩, fun f => ⟨fun h => ?_, ?_⟩, fun ls hcut => ?_, fun f h => ?_⟩
  · rcases scan_cases s with ⟨ls, hcut, hscan⟩ | ⟨done, ls, rest, f, -, -, -, hscan⟩
    · exact ⟨ls, hcut, Except.ok.inj (hscan.symm.trans h)⟩
    · cases hscan.symm.trans h
  · rintro ⟨ls, hcut, rfl⟩
    exact scan_cut hcut
  · rcases scan_cases s with ⟨ls, -, hscan⟩ | ⟨done, ls, rest, f', hs, hcut, hf, hscan⟩
    · cases hscan.symm.trans h
    · obtain rfl := Except.error.inj (hscan.symm.trans h)
      exact ⟨done, ls, rest, hs, hcut, fun l => hf.not_isCut, hf⟩
  · rintro ⟨done, ls, rest, hs, hcut, -, hf⟩
    exact scan_of_blames hs hcut hf
  · refine ⟨hcut.flatten_text, fun l hl => ?_⟩
    obtain ⟨text, hl⟩ := hcut.isCut l hl
    exact ⟨hl.spelled.ne_nil, fun v hv => (hv ▸ hl.spelled : Spells l.text (.num v)).ofText?_eq⟩
  · rcases scan_cases s with ⟨ls, -, hscan⟩ | ⟨done, ls, rest, f', -, -, hf, hscan⟩
    · cases hscan.symm.trans h
    · obtain rfl := Except.error.inj (hscan.symm.trans h)
      exact hf.kind

/-- What the lexer finds in a small text: a sign of its own, a point before digits and one after. -/
theorem scan_exact_of_root : ∃ ls, CutInto "√(.5) + 2.".toList ls []
    ∧ (ls.map (·.text)).flatten = "√(.5)+2.".toList
    ∧ ls.map (·.token) = [.ident "sqrt", .lpar, .num (Number.ofDecimal false ⟨5, -1⟩), .rpar,
        .op .add, .num (Number.ofDecimal false ⟨2, 0⟩)] := by
  have hscan : scan "√(.5) + 2." = .ok [.ident "sqrt", .lpar,
      .num (Number.ofDecimal false ⟨5, -1⟩), .rpar, .op .add,
      .num (Number.ofDecimal false ⟨2, 0⟩)] := by
    decide +kernel
  obtain ⟨ls, hcut, htokens⟩ := ((scan_exact _).1 _).1 hscan
  have htext := ((scan_exact _).2.2.1 ls hcut).1
  exact ⟨ls, hcut, htext.trans (by decide +kernel), htokens⟩

/-- A point is refused for what stands right next to it, be it a blank. -/
example : scan "x. 5" = .error .memberAccess ∧ scan "x . 5" = .error .strayPoint
    ∧ scan "1.2.3" = .error (.malformedNumber "1.2") := by
  decide +kernel

/-- Nothing but the allowed characters gets through the lexer. -/
theorem allowed_of_scan {s : String} {ts : List Token} (h : scan s = .ok ts) :
    ∀ c ∈ s.toList, Allowed c := by
  rcases scan_cases s with ⟨ls, hcut, -⟩ | ⟨_, _, _, f, -, -, -, hscan⟩
  · exact hcut.allowed
  · cases hscan.symm.trans h

end Token

end Reckon
