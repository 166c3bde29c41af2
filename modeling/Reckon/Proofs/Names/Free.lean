import Reckon.Proofs.Display.RoundTrip
import Reckon.Proofs.Verdict

/-!
# What of a scope matters to a text

A scope is looked up in one place, where the names of the tree are bound, and the names of the tree
are the names among the tokens that no parenthesis follows (`Parsed.names_eq`). So a text can be
analysed in two scopes and the outcome is the same, every stage and every fault of it, as long as
the scopes are finite and say the same of those names (`outcome_depends_on_freeNames`). What a scope
says of the name of a function, of a part of a name, or of a text that is no name at all is never
looked at.
-/

namespace Reckon

/-! ## Free names -/

/-- The names among some tokens that do not stand before an opening parenthesis, and so are not
called. -/
def Token.freeNames : List Token → List String
  | [] => []
  | .ident x :: ts => if ts.head? = some .lpar then freeNames ts else x :: freeNames ts
  | _ :: ts => freeNames ts

/-- The free names of a text, if it can be cut into tokens. -/
def freeNames (text : String) : List String :=
  match Token.scan (Text.compact text) with
  | .ok ts => Token.freeNames ts
  | .error _ => []

namespace Token

theorem freeNames_cons {t : Token} (h : t.name? = none) (ts : List Token) :
    freeNames (t :: ts) = freeNames ts := by
  cases t with
  | ident x => cases h
  | _ => simp only [freeNames]

/-- The free names among some tokens are these, whatever follows but an opening parenthesis, which
would make a call of a name at the end. -/
def Free (ts : List Token) (xs : List String) : Prop :=
  ∀ rest : List Token, rest.head? ≠ some .lpar → freeNames (ts ++ rest) = xs ++ freeNames rest

theorem free_num (v : Float) : Free [.num v] [] := fun rest _ => freeNames_cons rfl rest

theorem free_name (x : String) : Free [.ident x] [x] := by
  intro rest hrest
  rw [List.singleton_append, freeNames, if_neg hrest]
  rfl

/-- Two pieces with a token between them that does not open a parenthesis and is no name. -/
theorem Free.between {ts us : List Token} {xs ys : List String} {t : Token}
    (ht : t.name? = none) (hopen : t ≠ .lpar) (hts : Free ts xs) (hus : Free us ys) :
    Free (ts ++ t :: us) (xs ++ ys) := by
  intro rest hrest
  have hhead : (t :: (us ++ rest)).head? ≠ some .lpar := fun h => hopen (Option.some.inj h)
  rw [List.append_assoc, List.cons_append, hts _ hhead, freeNames_cons ht, hus rest hrest,
    List.append_assoc]

theorem Free.behind {us : List Token} {ys : List String} {t : Token} (ht : t.name? = none)
    (hus : Free us ys) : Free (t :: us) ys := by
  intro rest hrest
  rw [List.cons_append, freeNames_cons ht, hus rest hrest]

theorem Free.around {ts : List Token} {xs : List String} (h : Free ts xs) :
    Free (.lpar :: (ts ++ [.rpar])) xs := by
  intro rest _
  rw [List.cons_append, freeNames_cons rfl, List.append_assoc, h _ (by simp),
    List.singleton_append, freeNames_cons rfl]

/-- The name of a function that is called is not free. -/
theorem Free.called {ts : List Token} {xs : List String} (h : Free ts xs) (f : String) :
    Free (.ident f :: .lpar :: (ts ++ [.rpar])) xs := by
  intro rest hrest
  have haround := h.around rest hrest
  rw [List.cons_append] at haround ⊢
  rw [List.cons_append, freeNames, List.head?_cons, if_pos rfl, haround]

end Token

mutual

/-- The names in the expression of a phrase are the free ones among its tokens. -/
theorem Phrase.free : ∀ {k : Rank} (q : Phrase k), Token.Free q.tokens q.tree.names
  | _, .num v => Token.free_num v
  | _, .name x _ => Token.free_name x
  | _, .group s => s.free.around
  | _, .call f args _ => by
      rw [Phrase.tree, Expr.names_call]
      exact args.free.called f.name
  | _, .ofAtom a => a.free
  | _, .pow a b => by
      rw [Phrase.tree, Expr.names_bin]
      exact a.free.between rfl (by simp) b.free
  | _, .ofPower p => p.free
  | _, .plus p => p.free.behind rfl
  | _, .minus p => by
      rw [Phrase.tree, Expr.names_neg]
      exact p.free.behind rfl
  | _, .ofSigned s => s.free
  | _, .mul _ _ p s => by
      rw [Phrase.tree, Expr.names_bin]
      exact p.free.between rfl (by simp) s.free
  | _, .ofProduct p => p.free
  | _, .add _ _ s p => by
      rw [Phrase.tree, Expr.names_bin]
      exact s.free.between rfl (by simp) p.free

theorem Arguments.free : ∀ {n : Nat} (args : Arguments n),
    Token.Free args.tokens (args.trees.flatMap Expr.names)
  | _, .one s => by
      rw [Arguments.trees, List.flatMap_singleton]
      exact s.free
  | _, .more args s => by
      rw [Arguments.trees, List.flatMap_append, List.flatMap_singleton]
      exact args.free.between rfl (by simp) s.free

end

/-- **The names of a tree are the free names of its text.** -/
theorem Parsed.names_eq {s : String} {p : Parsed} (h : Parsed.ofText s = .ok p) :
    p.tree.names = Token.freeNames p.tokens := by
  obtain ⟨-, q, hq, htree, -⟩ := Parsed.stages h
  have hnames := q.free [] (by simp)
  rw [List.append_nil, Token.freeNames, List.append_nil] at hnames
  rw [htree, ← hq, hnames]

theorem Expr.Readable.free_of_mem_names {literal : Float → Prop} {e : Expr}
    (h : e.Readable literal) {x : String} (hx : x ∈ e.names) : Builtin.ofName? x = none := by
  induction h with
  | num hv => cases hx
  | var spelled free =>
      obtain rfl := List.mem_singleton.mp hx
      exact free
  | neg _ ih =>
      rw [names_neg] at hx
      exact ih hx
  | bin _ _ iha ihb =>
      rw [names_bin, List.mem_append] at hx
      exact hx.elim iha ihb
  | call accepted _ ih =>
      rw [names_call, List.mem_flatMap] at hx
      obtain ⟨a, ha, hx⟩ := hx
      exact ih a ha hx

/-- A name of a tree is free in the text and no function's. -/
theorem Parsed.mem_names {text : String} {p : Parsed}
    (h : Parsed.ofText (Text.compact text) = .ok p) {x : String} (hx : x ∈ p.tree.names) :
    x ∈ freeNames text ∧ Builtin.ofName? x = none := by
  have hreadable : p.tree.Readable fun _ => True := Parsed.readable h fun _ _ _ => trivial
  refine ⟨?_, hreadable.free_of_mem_names hx⟩
  rw [freeNames, (Parsed.stages h).1]
  rw [Parsed.names_eq h] at hx
  exact hx

/-! ## Scopes that say the same -/

theorem Scope.value?_congr {p q : Scope} {x : String} (h : p.find? x = q.find? x) :
    p.value? x = q.value? x := by
  rw [Scope.value?, Scope.value?, h]

/-- Binding looks up the names of the tree and no others. -/
theorem Expr.settle_congr {e : Expr} {p q : Scope}
    (h : ∀ x ∈ e.names, p.value? x = q.value? x) : e.settle p = e.settle q := by
  induction e using Expr.induction with
  | num v => rw [settle_num, settle_num]
  | var x => rw [settle_var, settle_var, h x (.head _)]
  | neg e ih =>
      rw [names_neg] at h
      rw [settle_neg, settle_neg, ih h]
  | bin op a b iha ihb =>
      rw [names_bin] at h
      rw [settle_bin, settle_bin, iha fun x hx => h x (List.mem_append_left _ hx),
        ihb fun x hx => h x (List.mem_append_right _ hx)]
  | call f args ih =>
      rw [names_call] at h
      rw [settle_call, settle_call, List.map_congr_left fun a ha =>
        ih a ha fun x hx => h x (List.mem_flatMap.mpr ⟨a, ha, hx⟩)]

/-- The outcome of an analysis depends on the scope through the bound tree only. -/
theorem analyse_congr {text : String} {p q : Scope} (hp : p.IsFinite) (hq : q.IsFinite)
    (h : ∀ parsed, Parsed.ofText (Text.compact text) = .ok parsed →
      parsed.tree.settle p = parsed.tree.settle q) : analyse text p = analyse text q := by
  by_cases hblank : Text.AllBlank text
  · rw [analyse_of_refused (admitText_of_allBlank p hblank),
      analyse_of_refused (admitText_of_allBlank q hblank)]
  · rw [analyse_eq_bind, analyse_eq_bind, (Admitted.mk hblank hp).admitText_eq,
      (Admitted.mk hblank hq).admitText_eq]
    cases hread : Parsed.ofText (Text.compact text) with
    | error f => simp only [Except.bind, hread]
    | ok parsed => simp only [Except.bind, hread, h parsed hread]

/-- Two scopes that say the same of all names that a tree of the text can have. -/
theorem outcome_congr {text : String} {p q : Scope} (hp : p.IsFinite) (hq : q.IsFinite)
    (h : ∀ x ∈ freeNames text, Builtin.ofName? x = none → p.find? x = q.find? x) :
    evaluate text p = evaluate text q ∧ analyse text p = analyse text q := by
  have hanalyse : analyse text p = analyse text q := by
    refine analyse_congr hp hq fun parsed hread => Expr.settle_congr fun x hx => ?_
    obtain ⟨hfree, hnone⟩ := Parsed.mem_names hread hx
    exact Scope.value?_congr (h x hfree hnone)
  rw [evaluate_eq_map_analyse, evaluate_eq_map_analyse, hanalyse]
  exact ⟨rfl, rfl⟩

/-- **What of a scope matters.** Finite scopes that say the same of the free names of a text give it
the same outcome in all its stages. So a finite scope that binds none of them does as well as no
scope, and one more finite binding changes nothing if its name is a function's or is not free in the
text. -/
theorem outcome_depends_on_freeNames (text : String) (p q : Scope) (hp : p.IsFinite)
    (hq : q.IsFinite) :
    ((∀ x ∈ freeNames text, p.find? x = q.find? x) →
      evaluate text p = evaluate text q ∧ analyse text p = analyse text q)
    ∧ ((∀ x ∈ freeNames text, p.find? x = none) →
      evaluate text p = evaluateIn text none ∧ analyse text p = analyseIn text none)
    ∧ ∀ x v, v.isFinite = true → (x ∉ freeNames text ∨ (Builtin.ofName? x).isSome = true) →
      evaluate text (p.insert x v) = evaluate text p
        ∧ analyse text (p.insert x v) = analyse text p := by
  refine ⟨fun h => outcome_congr hp hq fun x hx _ => h x hx, fun h => ?_,
    fun x v hv hx => outcome_congr (hp.insert x hv) hp fun y hy hnone => ?_⟩
  · rw [evaluateIn_eq_evaluate, analyseIn_eq_analyse]
    exact outcome_congr hp Scope.isFinite_empty fun x hx _ => h x hx
  · have hne : y ≠ x := by
      rintro rfl
      rcases hx with hx | hx
      · exact hx hy
      · rw [hnone] at hx
        cases hx
    rw [Scope.find?_insert, if_neg hne]

/-- The name of the function that is called, a part of the other name and an extension of it are
bound in one scope and not in the other. -/
theorem outcome_depends_on_freeNames_of_call :
    let p := Scope.ofList [("a", 7), ("ab", -4), ("abc", 1), ("abs", 2)]
    let q := Scope.ofList [("ab", -4)]
    freeNames "abs(ab) + pi" = ["ab", "pi"]
    ∧ (p.IsFinite ∧ q.IsFinite)
    ∧ (∀ x ∈ freeNames "abs(ab) + pi", p.find? x = q.find? x)
    ∧ evaluate "abs(ab) + pi" p = evaluate "abs(ab) + pi" q
    ∧ ("abs" ∉ freeNames "abs(ab) + pi"
      ∧ evaluate "abs(ab) + pi" (q.insert "abs" 2) = evaluate "abs(ab) + pi" q)
    ∧ (∀ x ∈ freeNames "abs(2)", p.find? x = none)
    ∧ evaluate "abs(2)" p = evaluateIn "abs(2)" none := by
  intro p q
  have hp : p.IsFinite := Scope.checkFinite_eq_ok_iff.mp rfl
  have hq : q.IsFinite := Scope.checkFinite_eq_ok_iff.mp rfl
  have hfree : freeNames "abs(ab) + pi" = ["ab", "pi"] := by decide +kernel
  have hagree : ∀ x ∈ freeNames "abs(ab) + pi", p.find? x = q.find? x := by
    rw [hfree]
    decide +kernel
  have hnone : ∀ x ∈ freeNames "abs(2)", p.find? x = none := by
    rw [(by decide +kernel : freeNames "abs(2)" = [])]
    rintro x ⟨⟩
  have hcalled : "abs" ∉ freeNames "abs(ab) + pi" := by
    rw [hfree]
    decide
  obtain ⟨hsame, -, hinsert⟩ := outcome_depends_on_freeNames "abs(ab) + pi" q p hq hp
  exact ⟨hfree, ⟨hp, hq⟩, hagree, (hsame fun x hx => (hagree x hx).symm).1.symm,
    ⟨hcalled, (hinsert "abs" 2 (by decide +kernel) (.inl hcalled)).1⟩, hnone,
    ((outcome_depends_on_freeNames "abs(2)" p q hp hq).2.1 hnone).1⟩

end Reckon
