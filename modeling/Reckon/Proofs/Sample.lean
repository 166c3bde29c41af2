import Reckon.Proofs.Names.Free
import Reckon.Proofs.Simple.Agreement
import Reckon.Proofs.Token.Adjacent
import Reckon.Sample

/-!
# Samples are well formed

A sample is put together from smaller ones with nothing around them, so what stands behind an
operator may be a sum of its own, or begin with a sign or with the point of a number. It is read all
the same, though not as the tree that it was put together as: an expression with an operator and
another expression behind it is one again, whatever the two are (`Phrase.exists_pasted`).

`Writes` says of a text that it is an expression in some names. Every step of a draw keeps that,
whatever numbers the generator gives (`Always`), and so every sample is read; in a scope that binds
its names only the size of its value is left to go wrong.
-/

namespace Reckon

/-! ## One expression behind another -/

namespace Phrase

/-- Behind an operator that is no power a product ends in a sum. -/
theorem exists_pasted_product (q : Phrase .sum) {op : BinOp} (hop : op ≠ .pow)
    (p : Phrase .product) : ∃ q' : Phrase .sum, q'.tokens = q.tokens ++ .op op :: p.tokens := by
  -- a term of a sum begins with the first factor, and a product takes this one into its last term
  induction p using product_induction with
  | one s =>
      cases hrank : op.rank with
      | sum => exact ⟨.add op hrank q (.ofSigned s), by simp only [tokens]⟩
      | product => exact q.exists_scaled hrank s
      | _ => cases op <;> first | exact absurd rfl hop | cases hrank
  | snoc p op' scales s ih =>
      obtain ⟨t, ht⟩ := ih
      obtain ⟨q', hq'⟩ := t.exists_scaled scales s
      exact ⟨q', by rw [hq', ht, tokens, List.append_assoc, List.cons_append]⟩

/-- **Two expressions with an operator between them are an expression**, unless it is a power. The
operator takes no more than it binds of either. -/
theorem exists_pasted (q : Phrase .sum) {op : BinOp} (hop : op ≠ .pow) (r : Phrase .sum) :
    ∃ q' : Phrase .sum, q'.tokens = q.tokens ++ .op op :: r.tokens := by
  induction r using sum_induction with
  | one p => exact q.exists_pasted_product hop p
  | snoc s op' adds p ih =>
      obtain ⟨t, ht⟩ := ih
      exact ⟨.add op' adds t p, by rw [tokens, tokens, ht, List.append_assoc, List.cons_append]⟩

end Phrase

namespace Sample

/-! ## Draws -/

/-- Whatever state a draw starts from, what it gives has a property. -/
def Always {α : Type} (d : Draw α) (P : α → Prop) : Prop := ∀ state, P (d state).1

theorem Always.bind {α β : Type} {d : Draw α} {f : α → Draw β} {P : α → Prop} {Q : β → Prop}
    (hd : Always d P) (hf : ∀ a, P a → Always (f a) Q) : Always (d >>= f) Q :=
  fun state => hf _ (hd state) _

theorem Always.mono {α : Type} {d : Draw α} {P Q : α → Prop} (h : Always d P)
    (hpq : ∀ a, P a → Q a) : Always d Q := fun state => hpq _ (h state)

/-- A text is cut into the tokens of a phrase of a rank whose names are among some. -/
def Writes (k : Rank) (xs : List String) (s : String) : Prop :=
  ∃ q : Phrase k, Token.Cuts s q.tokens ∧ ∀ x ∈ q.tree.names, x ∈ xs

section

variable {k m : Rank} {xs : List String} {s t : String}

theorem Writes.loosen (h : Writes m xs s) (hk : k.tightness ≤ m.tightness) : Writes k xs s := by
  obtain ⟨q, hcut, hnames⟩ := h
  obtain ⟨q', htokens, htree⟩ := q.exists_loosen hk
  exact ⟨q', htokens ▸ hcut, htree ▸ hnames⟩

theorem Writes.sum (h : Writes m xs s) : Writes .sum xs s := h.loosen (by cases m <;> decide)

theorem Writes.enclose (h : Writes .sum xs s) : Writes .atom xs ("(" ++ s ++ ")") := by
  obtain ⟨q, hcut, hnames⟩ := h
  exact ⟨.group q, hcut.enclose true, hnames⟩

theorem Writes.minus (h : Writes .atom xs s) : Writes .signed xs ("-" ++ s) := by
  obtain ⟨q, hcut, hnames⟩ := h
  refine ⟨.minus (.ofAtom q), hcut.behind rfl rfl, ?_⟩
  rwa [Phrase.tree, Phrase.tree, Expr.names_neg]

theorem Writes.power (hs : Writes .atom xs s) (ht : Writes .signed xs t) :
    Writes .power xs (s ++ "^" ++ t) := by
  obtain ⟨q, hcut, hnames⟩ := hs
  obtain ⟨r, hcut', hnames'⟩ := ht
  refine ⟨.pow q r, hcut.join rfl rfl hcut', fun x hx => ?_⟩
  rw [Phrase.tree, Expr.names_bin] at hx
  exact (List.mem_append.mp hx).elim (hnames x) (hnames' x)

/-- The names of an expression are those of the two that it is pasted from, although its tree is put
together in another way. -/
theorem names_pasted {q r q' : Phrase .sum} {op : BinOp}
    (h : q'.tokens = q.tokens ++ .op op :: r.tokens) :
    q'.tree.names = q.tree.names ++ r.tree.names := by
  -- the names are read off the tokens, which are those of the two and the operator
  have hparts := q.free.between (t := .op op) rfl (by simp) r.free
  rw [← h] at hparts
  have hboth := (hparts [] (by simp)).symm.trans (q'.free [] (by simp))
  simpa [Token.freeNames] using hboth.symm

/-- Two expressions are pasted with any operator but a power between them. -/
theorem Writes.paste {op : BinOp} {w : String} {c : Char} (hs : Writes .sum xs s)
    (hop : op ≠ .pow) (hw : (Text.compact w).toList = [c]) (hc : Token.ofSymbol? c = some (.op op))
    (ht : Writes .sum xs t) : Writes .sum xs (s ++ w ++ t) := by
  obtain ⟨q, hcut, hnames⟩ := hs
  obtain ⟨r, hcut', hnames'⟩ := ht
  obtain ⟨q', hq'⟩ := q.exists_pasted hop r
  refine ⟨q', hq' ▸ hcut.join hw hc hcut', fun x hx => ?_⟩
  rw [names_pasted hq'] at hx
  exact (List.mem_append.mp hx).elim (hnames x) (hnames' x)

/-- A row of texts that can be the arguments of a call. -/
def WritesArguments (n : Nat) (xs : List String) (s : String) : Prop :=
  ∃ args : Arguments n, Token.Cuts s args.tokens ∧ ∀ e ∈ args.trees, ∀ x ∈ e.names, x ∈ xs

theorem Writes.one (h : Writes .sum xs s) : WritesArguments 1 xs s := by
  obtain ⟨q, hcut, hnames⟩ := h
  refine ⟨.one q, hcut, fun e he => ?_⟩
  rw [List.mem_singleton.mp he]
  exact hnames

theorem WritesArguments.more {n : Nat} (hs : WritesArguments n xs s) (ht : Writes .sum xs t) :
    WritesArguments (n + 1) xs (s ++ "," ++ t) := by
  obtain ⟨args, hcut, hnames⟩ := hs
  obtain ⟨q, hcut', hnames'⟩ := ht
  refine ⟨.more args q, hcut.join rfl rfl hcut', fun e he => ?_⟩
  rcases List.mem_append.mp he with he | he
  · exact hnames e he
  · rw [List.mem_singleton.mp he]
    exact hnames'

theorem WritesArguments.call {n : Nat} {f : Builtin} (h : WritesArguments n xs s)
    (accepted : f.arity.accepts n = true) : Writes .atom xs (f.name ++ "(" ++ s ++ ")") := by
  obtain ⟨args, hcut, hnames⟩ := h
  have hclosed := hcut.join (m := ")") rfl rfl Token.cuts_nil
  have hcall := (Token.cuts_name (Token.isName_name f)).join (m := "(") rfl rfl hclosed
  rw [String.append_empty, ← String.append_assoc] at hcall
  refine ⟨.call f args accepted, hcall, fun x hx => ?_⟩
  rw [Phrase.tree, Expr.names_call, List.mem_flatMap] at hx
  obtain ⟨e, he, hx⟩ := hx
  exact hnames e he x hx

end

/-- An expression whose names stand for something has a value, finite or not. -/
theorem Writes.exists_value {xs : List String} {s : String} (h : Writes .sum xs s) {scope : Scope}
    (finite : scope.IsFinite) (bound : ∀ x ∈ xs, (scope.value? x).isSome = true) :
    (∃ v, evaluate s scope = .ok v) ∨ ∃ v, evaluate s scope = .error (.nonFiniteResult v) := by
  obtain ⟨q, hcut, hnames⟩ := h
  have hread := Parsed.ofText_eq hcut.scan
  have hbound : (q.tree.settle scope).names = [] :=
    Expr.names_settle_eq_nil_iff.mpr fun x hx => bound x (hnames x hx)
  obtain ⟨v, hv⟩ := q.wellApplied.exists_eval_settle hbound
  rw [evaluate_of_read (Scope.checkFinite_eq_ok_iff.mpr finite) hread]
  dsimp only
  rw [Expr.checkedValue_of_eval hv hbound]
  split
  · exact .inl ⟨v, rfl⟩
  · exact .inr ⟨v, rfl⟩

/-! ## Numbers and names -/

/-- An operator that is drawn, close to its operands or with blanks around it. -/
theorem Writes.operator {xs : List String} {s t w : String} (hs : Writes .sum xs s)
    (hw : w ∈ operators) (ht : Writes .sum xs t) :
    Writes .sum xs (s ++ w ++ t) ∧ Writes .sum xs (s ++ " " ++ w ++ " " ++ t) := by
  have htext : ∃ (op : BinOp) (c : Char), op ≠ .pow ∧ Token.ofSymbol? c = some (.op op)
      ∧ (Text.compact w).toList = [c] ∧ (Text.compact (" " ++ w ++ " ")).toList = [c] := by
    simp only [operators, List.mem_cons, List.not_mem_nil, or_false] at hw
    rcases hw with rfl | rfl | rfl | rfl
    · exact ⟨.add, '+', by decide, rfl, rfl, rfl⟩
    · exact ⟨.sub, '-', by decide, rfl, rfl, rfl⟩
    · exact ⟨.mul, '*', by decide, rfl, rfl, rfl⟩
    · exact ⟨.div, '/', by decide, rfl, rfl, rfl⟩
  obtain ⟨op, c, hop, hc, htight, hwide⟩ := htext
  have hspaced : s ++ " " ++ w ++ " " ++ t = s ++ (" " ++ w ++ " ") ++ t := by
    simp only [String.append_assoc]
  exact ⟨hs.paste hop htight hc ht, hspaced ▸ hs.paste hop hwide hc ht⟩

/-! ## Plain arithmetic -/

/-- A text of plain characters and spaces. -/
def PlainText (s : String) : Prop := ∀ c ∈ s.toList, Simple.isPlain c = true ∨ c = ' '

theorem PlainText.append {s t : String} (hs : PlainText s) (ht : PlainText t) :
    PlainText (s ++ t) := fun c hc =>
  (List.mem_append.mp (String.toList_append ▸ hc)).elim (hs c) (ht c)

theorem plainText_of_all {s : String} (h : s.toList.all Simple.isPlain = true) : PlainText s :=
  fun c hc => .inl (List.all_eq_true.mp h c hc)

/-- An expression without names in plain characters. -/
def WritesPlain (s : String) : Prop := PlainText s ∧ Writes .sum [] s

theorem WritesPlain.enclose {s : String} (h : WritesPlain s) : WritesPlain ("(" ++ s ++ ")") :=
  ⟨(plainText_of_all (s := "(") rfl).append h.1 |>.append (plainText_of_all (s := ")") rfl),
    h.2.enclose.sum⟩

/-- The names that samples use. -/
def names : List String := ["pi", "e", "x", "y"]

/-- An expression without names has a value, finite or not. -/
theorem Writes.exists_closed_value {s : String} (h : Writes .sum [] s) :
    (∃ v, evaluate s ∅ = .ok v) ∨ ∃ v, evaluate s ∅ = .error (.nonFiniteResult v) :=
  h.exists_value Scope.isFinite_empty fun _ hx => absurd hx List.not_mem_nil

/-- A text that is an expression is not all blank, since a blank text is refused. -/
theorem Writes.compact_ne_nil {s : String} (h : Writes .sum [] s) :
    (Text.compact s).toList ≠ [] := by
  intro hnil
  have hblank : evaluate s ∅ = .error .blankText :=
    evaluate_of_refused (admitText_of_allBlank ∅ (Text.toList_compact_eq_nil_iff.mp hnil))
  have hvalue := h.exists_closed_value
  rw [hblank] at hvalue
  rcases hvalue with ⟨v, hv⟩ | ⟨v, hv⟩ <;> cases hv

theorem PlainText.compact {s : String} (h : PlainText s) :
    ∀ c ∈ (Text.compact s).toList, Simple.isPlain c = true := by
  intro c hc
  rw [Text.toList_compact, List.mem_filter] at hc
  refine (h c hc.1).resolve_right ?_
  rintro rfl
  exact absurd hc.2 (by decide)

/-- On a plain expression the two evaluators find the same value, or both that it is not finite. -/
theorem WritesPlain.outcome {s : String} (h : WritesPlain s) :
    (∃ v, evaluate s ∅ = .ok v ∧ Simple.outcome s = .value v)
    ∨ ∃ v, evaluate s ∅ = .error (.nonFiniteResult v) ∧ Simple.outcome s = .nonFinite := by
  have agree := Simple.agree_of_plain Scope.isFinite_empty h.2.compact_ne_nil h.1.compact
  change Simple.Agree _ _ (evaluate s ∅) at agree
  rcases h.2.exists_closed_value with ⟨v, hv⟩ | ⟨v, hv⟩ <;> rw [hv] at agree <;>
    generalize Simple.outcome s = o at agree ⊢
  · cases agree
    exact .inl ⟨v, hv, rfl⟩
  · cases agree with
    | nonFinite => exact .inr ⟨v, hv, rfl⟩
    | malformed _ hf => cases hf
    | unbalanced _ hf => cases hf

end Sample

end Reckon
