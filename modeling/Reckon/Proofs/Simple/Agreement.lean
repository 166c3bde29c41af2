import Reckon.Proofs.Display.Tokens
import Reckon.Proofs.Simple.Balance
import Reckon.Proofs.Verdict

/-!
# The simple evaluator agrees with the full one

On a text of plain characters the two evaluators do the same, except that the simple one looks at
the parentheses first and does without a scope. Neither makes a difference: a text whose parentheses
do not match is not read by the full evaluator either, and there is no name in a plain text for a
scope to bind. What is left is to say which fault goes with which outcome, and for this the faults
of a plain text are sorted: none of them is about a name, so none is unsafe.
-/

namespace Reckon

/-! ## The faults of the reader -/

/-- A fault of the reader that is not about the form of the text is about a name. -/
def Fault.OfReader (ts : List Token) (f : Fault) : Prop :=
  f.kind = .evaluationError ∨ ∃ x ∈ Token.names ts, f = .unknownFunction x

theorem Fault.OfReader.mono {ts us : List Token} {f : Fault} (h : f.OfReader ts) (hsub : ts ⊆ us) :
    f.OfReader us := by
  rcases h with hkind | ⟨x, hx, hf⟩
  · exact .inl hkind
  · obtain ⟨t, ht, htx⟩ := List.mem_filterMap.mp hx
    exact .inr ⟨x, List.mem_filterMap.mpr ⟨t, hsub ht, htx⟩, hf⟩

namespace Reading

variable {r : Reading} {t : Token} {f : Fault}

theorem kind_of_checkOperand (h : r.checkOperand t = .error f) : f.kind = .evaluationError := by
  unfold checkOperand at h
  split at h <;> cases h
  rfl

theorem kind_of_readName {x : String} {called : Bool} (h : r.readName x called = .error f) :
    f.kind = .evaluationError ∨ f = .unknownFunction x := by
  unfold readName at h
  split at h
  · split at h <;> cases h
    exact .inl rfl
  · split at h <;> cases h
    exact .inr rfl

theorem kind_of_readComma (h : r.readComma = .error f) : f.kind = .evaluationError := by
  unfold readComma at h
  split at h
  · cases h
    rfl
  · split at h <;> cases h
    rfl

theorem kind_of_readClosing (h : r.readClosing = .error f) : f.kind = .evaluationError := by
  unfold readClosing at h
  split at h
  · split at h <;> cases h <;> rfl
  · split at h
    · cases h
    · split at h <;> cases h
      rfl
    · cases h
      rfl

theorem kind_of_readSign {op : BinOp} (h : r.readSign op = .error f) :
    f.kind = .evaluationError := by
  unfold readSign at h
  split at h <;> cases h
  rfl

theorem ofReader_of_read {next : Option Token} (h : r.read t next = .error f) :
    f.OfReader [t] := by
  cases t with
  | num v =>
      rw [read] at h
      cases hc : r.checkOperand (.num v) with
      | error g => rw [hc] at h; cases h; exact .inl (kind_of_checkOperand hc)
      | ok _ => rw [hc] at h; cases h
  | ident x =>
      rw [read] at h
      cases hc : r.checkOperand (.ident x) with
      | error g => rw [hc] at h; cases h; exact .inl (kind_of_checkOperand hc)
      | ok _ =>
          rw [hc] at h
          exact (kind_of_readName h).imp_right fun hf => ⟨x, .head _, hf⟩
  | lpar =>
      rw [read] at h
      cases hc : r.checkOperand .lpar with
      | error g => rw [hc] at h; cases h; exact .inl (kind_of_checkOperand hc)
      | ok _ => rw [hc] at h; cases h
  | comma => exact .inl (kind_of_readComma h)
  | rpar => exact .inl (kind_of_readClosing h)
  | op op =>
      rw [read] at h
      split at h
      · cases h
      split at h
      · exact .inl (kind_of_readSign h)
      · cases h
        exact .inl rfl

/-- **A fault of the reader is about the form of the text**, or about a name in it. -/
theorem ofReader_of_readAll {ts : List Token} (h : r.readAll ts = .error f) :
    f.OfReader ts := by
  induction ts generalizing r with
  | nil => cases h
  | cons t ts ih =>
      rw [readAll] at h
      split at h
      · exact (ih h).mono (List.subset_cons_self t ts)
      · rename_i e he
        cases h
        exact (ofReader_of_read he).mono (List.cons_subset_cons t (List.nil_subset ts))

end Reading

theorem Listing.ofReader_of_ofTokens {ts : List Token} {f : Fault}
    (h : Listing.ofTokens ts = .error f) : f.OfReader ts := by
  unfold Listing.ofTokens at h
  cases hr : Reading.start.readAll ts with
  | error e =>
      rw [hr] at h
      cases h
      exact Reading.ofReader_of_readAll hr
  | ok r =>
      rw [hr] at h
      change (if r.last = .value then r.close else _) = _ at h
      split at h
      · unfold Reading.close at h
        split at h <;> cases h
        exact .inl rfl
      · split at h <;> cases h <;> exact .inl rfl

/-! ## Plain texts -/

namespace Simple

/-- Only characters of plain arithmetic. -/
def AllPlain (cs : List Char) : Prop := ∀ c ∈ cs, isPlain c = true

/-- A plain character is a digit or stands for itself. -/
theorem isPlain_cases {c : Char} (h : isPlain c = true) :
    c.isDigit = true ∨ c = '.' ∨ ∃ t, Token.ofSymbol? c = some t ∧ t.name? = none := by
  rcases Bool.or_eq_true_iff.mp h with h | h
  · exact .inl h
  · simp only [List.contains_iff_mem, List.mem_cons, List.not_mem_nil, or_false] at h
    rcases h with rfl | rfl | rfl | rfl | rfl | rfl | rfl
    all_goals first | exact .inr (.inl rfl) | exact .inr (.inr ⟨_, rfl, rfl⟩)

theorem isNameStart_of_isPlain {c : Char} (h : isPlain c = true) : Token.isNameStart c = false := by
  rcases isPlain_cases h with hc | rfl | ⟨t, ht, -⟩
  · exact Token.not_isNameStart_of_isDigit hc
  · rfl
  · rw [← Bool.not_eq_true]
    intro hstart
    rw [Token.ofSymbol?_of_isNamePart (Token.isNamePart_of_isNameStart hstart)] at ht
    cases ht

theorem any_isNameStart_of_plain {c : Option Char} (h : ∀ d ∈ c, isPlain d = true) :
    c.any Token.isNameStart = false := by
  cases c with
  | none => rfl
  | some c => exact isNameStart_of_isPlain (h c rfl)

theorem name?_of_number {before : Option Char} {cs : List Char} {l : Token.Lexeme}
    (h : Token.number before cs = .ok l) : l.token.name? = none := by
  unfold Token.number at h
  dsimp only at h
  split at h
  · split at h <;> cases h
  · split at h <;> cases h
    rfl

/-- There is no member to be accessed next to plain characters. -/
theorem kind_of_number {before : Option Char} {cs : List Char} {f : Fault}
    (hbefore : ∀ c ∈ before, isPlain c = true) (hcs : AllPlain cs)
    (h : Token.number before cs = .error f) : f.kind = .evaluationError := by
  have hrest : ∀ c ∈ (Token.splitFraction (cs.dropWhile Char.isDigit)).2.head?,
      isPlain c = true := by
    intro c hc
    refine hcs c ?_
    have hsplit := Token.splitFraction_append (cs.dropWhile Char.isDigit)
    refine (List.dropWhile_sublist Char.isDigit).subset ?_
    rw [← hsplit]
    exact List.mem_append_right _ (List.mem_of_mem_head? hc)
  unfold Token.number at h
  dsimp only at h
  rw [any_isNameStart_of_plain hbefore, any_isNameStart_of_plain hrest] at h
  split at h
  · cases h
    rfl
  · split at h <;> cases h
    rfl

/-- A plain character begins a number or stands for itself. -/
theorem lexeme_of_isPlain {c : Char} (hc : isPlain c = true) (before : Option Char)
    (cs : List Char) :
    Token.lexeme before c cs = Token.number before (c :: cs)
    ∨ ∃ t, t.name? = none ∧ Token.lexeme before c cs = .ok ⟨t, [c], cs⟩ := by
  unfold Token.lexeme
  rcases isPlain_cases hc with hd | rfl | ⟨t, ht, hname⟩
  · left
    simp only [Token.ofSymbol?_of_isNamePart (Token.isNamePart_of_isDigit hd),
      Token.not_isNameStart_of_isDigit hd, hd, Bool.false_eq_true, if_false, Bool.true_or, if_true]
  · exact .inl rfl
  · exact .inr ⟨t, hname, by rw [ht]⟩

theorem name?_of_lexeme {before : Option Char} {c : Char} {cs : List Char} {l : Token.Lexeme}
    (hc : isPlain c = true) (h : Token.lexeme before c cs = .ok l) : l.token.name? = none := by
  rcases lexeme_of_isPlain hc before cs with hnumber | ⟨t, hname, ht⟩
  · exact name?_of_number (hnumber.symm.trans h)
  · obtain rfl := Except.ok.inj (ht.symm.trans h)
    exact hname

theorem kind_of_lexeme {before : Option Char} {c : Char} {cs : List Char} {f : Fault}
    (hbefore : ∀ d ∈ before, isPlain d = true) (hcs : AllPlain (c :: cs))
    (h : Token.lexeme before c cs = .error f) : f.kind = .evaluationError := by
  rcases lexeme_of_isPlain (hcs c (.head _)) before cs with hnumber | ⟨t, -, ht⟩
  · exact kind_of_number hbefore hcs (hnumber.symm.trans h)
  · cases ht.symm.trans h

/-- The tokens of a plain text are no names. -/
theorem names_of_scanFrom {before : Option Char} {found ts : List Token} {cs : List Char}
    (hfound : ∀ t ∈ found, t.name? = none) (hcs : AllPlain cs)
    (h : Token.scanFrom before found cs = .ok ts) : Token.names ts = [] := by
  fun_induction Token.scanFrom before found cs with
  | case1 before found =>
      cases h
      exact List.filterMap_eq_nil_iff.mpr fun t ht => hfound t (List.mem_reverse.mp ht)
  | case2 before found c cs hc ih => exact ih hfound (fun d hd => hcs d (.tail _ hd)) h
  | case3 => cases h
  | case4 before found c cs hc l hl ih =>
      refine ih (fun t ht => ?_) (fun d hd => hcs d ?_) h
      · rcases List.mem_cons.mp ht with rfl | ht
        · exact name?_of_lexeme (hcs c (.head _)) hl
        · exact hfound t ht
      · rw [← Token.lexeme_append hl]
        exact List.mem_append_right _ hd

/-- A plain text is not cut into tokens only if it is not well formed. -/
theorem kind_of_scanFrom {before : Option Char} {found : List Token} {cs : List Char} {f : Fault}
    (hbefore : ∀ d ∈ before, isPlain d = true) (hcs : AllPlain cs)
    (h : Token.scanFrom before found cs = .error f) : f.kind = .evaluationError := by
  fun_induction Token.scanFrom before found cs with
  | case1 => cases h
  | case2 before found c cs hc ih =>
      refine ih ?_ (fun d hd => hcs d (.tail _ hd)) h
      rintro d ⟨⟩
      exact hcs c (.head _)
  | case3 before found c cs hc e he =>
      cases h
      exact kind_of_lexeme hbefore hcs he
  | case4 before found c cs hc l hl ih =>
      have hmem : ∀ d ∈ l.text ++ l.rest, isPlain d = true := by
        rw [Token.lexeme_append hl]
        exact hcs
      refine ih (fun d hd => ?_) (fun d hd => ?_) h
      · exact hmem d (List.mem_append_left _ (List.mem_of_getLast? hd))
      · exact hmem d (List.mem_append_right _ hd)

theorem names_of_plain {s : String} {p : Parsed} (hs : AllPlain s.toList)
    (h : Parsed.ofText s = .ok p) : p.tree.names = [] := by
  have htokens : Token.names p.tokens = [] :=
    names_of_scanFrom (by simp) hs (Parsed.stages h).1
  exact List.sublist_nil.mp (htokens ▸ Parsed.names_sublist h)

theorem kind_of_plain {s : String} {f : Fault} (hs : AllPlain s.toList)
    (h : Parsed.ofText s = .error f) : f.kind = .evaluationError := by
  rcases Parsed.ofText_eq_error_iff.mp h with hscan | ⟨ts, hscan, hlist⟩
  · exact kind_of_scanFrom (by simp) hs hscan
  · rcases Listing.ofReader_of_ofTokens hlist with hkind | ⟨x, hx, -⟩
    · exact hkind
    · rw [names_of_scanFrom (by simp) hs hscan] at hx
      cases hx

/-! ## Agreement -/

variable {text : String}

/-- The outcome of a plain text that is not empty. -/
theorem outcome_of_plain (hne : (Text.compact text).toList ≠ [])
    (hs : AllPlain (Text.compact text).toList) :
    outcome text =
      if !balancedFrom 0 (Text.compact text).toList then .unbalanced
      else .ofResult (Parsed.ofText (Text.compact text) >>= fun p => p.tree.checkedValue) := by
  obtain ⟨c, hc⟩ := List.exists_mem_of_ne_nil _ hne
  have hany : (Text.compact text).toList.any isPlain = true := List.any_eq_true.mpr ⟨c, hc, hs c hc⟩
  rw [outcome_eq, hany, List.all_eq_true.mpr hs]
  rfl

/-- What the two evaluators make of one plain text, by whether its parentheses match. -/
inductive Agree (balanced : Prop) : Outcome → Except Fault Float → Prop
  | value (h : balanced) (v : Float) : Agree balanced (.value v) (.ok v)
  | nonFinite (h : balanced) (v : Float) :
      Agree balanced .nonFinite (.error (.nonFiniteResult v))
  | malformed (h : balanced) {f : Fault} (hf : f.kind = .evaluationError) :
      Agree balanced .malformed (.error f)
  | unbalanced (h : ¬ balanced) {f : Fault} (hf : f.kind = .evaluationError) :
      Agree balanced .unbalanced (.error f)

/-- **The evaluators agree on plain texts.** -/
theorem agree_of_plain {scope : Scope} (finite : scope.IsFinite)
    (hne : (Text.compact text).toList ≠ []) (hs : AllPlain (Text.compact text).toList) :
    Agree (IsDyck (Text.steps (Text.compact text).toList)) (outcome text)
      (Reckon.evaluate text scope) := by
  have admitted : Admitted text scope := ⟨mt Text.toList_compact_eq_nil_iff.mpr hne, finite⟩
  rw [outcome_of_plain hne hs, admitted.evaluate_eq]
  cases hread : Parsed.ofText (Text.compact text) with
  | error f =>
      have hkind := kind_of_plain hs hread
      by_cases hbal : IsDyck (Text.steps (Text.compact text).toList)
      · rw [(balanced_iff _).mpr hbal]
        -- of the faults that make a text malformed, none is about the size of a value
        cases f with
        | nonFiniteResult v => cases hkind
        | _ => exact .malformed hbal hkind
      · rw [Bool.eq_false_of_not_eq_true (mt (balanced_iff _).mp hbal)]
        exact .unbalanced hbal hkind
  | ok p =>
      have hbal := Parsed.isDyck hread
      have hnames := names_of_plain hs hread
      obtain ⟨v, hv⟩ := (Parsed.wellApplied hread).exists_eval hnames
      rw [(balanced_iff _).mpr hbal]
      change Agree _ (.ofResult p.tree.checkedValue) (p.tree.settle scope).checkedValue
      rw [Expr.settle_of_names_eq_nil scope hnames, Expr.checkedValue_of_eval hv hnames]
      by_cases hfin : v.isFinite = true
      · rw [if_pos hfin]
        exact .value hbal v
      · rw [if_neg hfin]
        exact .nonFinite hbal v

end Simple

end Reckon
