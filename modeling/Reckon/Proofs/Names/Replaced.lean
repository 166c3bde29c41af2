import Reckon.Proofs.Names.First
import Reckon.Proofs.Token.Adjacent

/-!
# An expression in place of a name

A name stands for its number, and so does any expression with that value: with its tokens in
parentheses wherever the name stood, a text has the outcome that it has in the scope that binds the
name to the value (`evaluateTokens_replaceName`).

The parentheses make an atom of the expression, whatever stands before or behind the name, so a
derivation stays one when they are put into it (`Phrase.replace`). What it then stands for is the
tree with the tree of the expression at each leaf that was the name (`Expr.replace`), and a leaf
counts for its value alone (`Expr.eval_settle_replace`). No call is touched, because the name that
is called is a function's.
-/

namespace Reckon

/-- What some tokens are worth in a scope. -/
def evaluateTokens (ts : List Token) (scope : Scope) : Except Fault Float := do
  let listing ← Listing.ofTokens ts
  let tree ← Expr.ofListing listing
  (tree.settle scope).checkedValue

/-- An evaluation admits a text, cuts it into tokens and evaluates these. -/
theorem evaluate_eq_evaluateTokens (text : String) (scope : Scope) :
    evaluate text scope = (do
      let s ← admitText text scope
      let ts ← Token.scan s
      evaluateTokens ts scope) := by
  rw [evaluate_eq_bind]
  unfold evaluateTokens Parsed.ofText
  cases admitText text scope with
  | error f => rfl
  | ok s =>
      change ((Token.scan s >>= _) >>= _) = (Token.scan s >>= _)
      cases Token.scan s with
      | error f => rfl
      | ok ts =>
          change ((Listing.ofTokens ts >>= _) >>= _) = (Listing.ofTokens ts >>= _)
          cases Listing.ofTokens ts with
          | error f => rfl
          | ok l =>
              change ((Expr.ofListing l >>= _) >>= _) = (Expr.ofListing l >>= _)
              cases Expr.ofListing l <;> rfl

/-- The tokens of a phrase are worth what its tree is. -/
theorem evaluateTokens_phrase (q : Phrase .sum) (scope : Scope) :
    evaluateTokens q.tokens scope = (q.tree.settle scope).checkedValue := by
  unfold evaluateTokens
  rw [q.ofTokens_tokens]
  change (Expr.ofListing q.tree.listing >>= _) = _
  rw [Expr.ofListing_listing]
  rfl

/-! ## Putting an expression in place of a name -/

/-- Some tokens with others in parentheses in place of each token that is a name. -/
def Token.replaceName (x : String) (us : List Token) (ts : List Token) : List Token :=
  ts.flatMap fun t => if t = .ident x then .lpar :: (us ++ [.rpar]) else [t]

mutual

/-- A tree with another in place of each leaf that is a name. -/
def Expr.replace (x : String) (d : Expr) : Expr → Expr
  | num v => num v
  | var y => if y = x then d else var y
  | neg e => neg (Expr.replace x d e)
  | bin op a b => bin op (Expr.replace x d a) (Expr.replace x d b)
  | call f args => call f (Expr.replaceAll x d args)

/-- As `replace`, in each of some trees. -/
def Expr.replaceAll (x : String) (d : Expr) : List Expr → List Expr
  | [] => []
  | a :: args => Expr.replace x d a :: Expr.replaceAll x d args

end

mutual

/-- A phrase with a group in place of each atom that is a name. -/
def Phrase.replace (x : String) (s : Phrase .sum) : {k : Rank} → Phrase k → Phrase k
  | _, .num v => .num v
  | _, .name y free => if y = x then .group s else .name y free
  | _, .group t => .group (Phrase.replace x s t)
  | _, .call f args accepted => .call f (Arguments.replace x s args) accepted
  | _, .ofAtom a => .ofAtom (Phrase.replace x s a)
  | _, .pow a b => .pow (Phrase.replace x s a) (Phrase.replace x s b)
  | _, .ofPower p => .ofPower (Phrase.replace x s p)
  | _, .plus p => .plus (Phrase.replace x s p)
  | _, .minus p => .minus (Phrase.replace x s p)
  | _, .ofSigned t => .ofSigned (Phrase.replace x s t)
  | _, .mul op scales p t => .mul op scales (Phrase.replace x s p) (Phrase.replace x s t)
  | _, .ofProduct p => .ofProduct (Phrase.replace x s p)
  | _, .add op adds t p => .add op adds (Phrase.replace x s t) (Phrase.replace x s p)

/-- As `Phrase.replace`, in each of some arguments. -/
def Arguments.replace (x : String) (s : Phrase .sum) : {n : Nat} → Arguments n → Arguments n
  | _, .one t => .one (Phrase.replace x s t)
  | _, .more args t => .more (Arguments.replace x s args) (Phrase.replace x s t)

end

/-! ## What the phrase derives -/

namespace Token

variable {x : String} {us : List Token}

@[simp] theorem replaceName_nil : replaceName x us [] = [] := rfl

@[simp] theorem replaceName_append (ts ts' : List Token) :
    replaceName x us (ts ++ ts') = replaceName x us ts ++ replaceName x us ts' :=
  List.flatMap_append

theorem replaceName_self (ts : List Token) :
    replaceName x us (.ident x :: ts) = .lpar :: (us ++ [.rpar]) ++ replaceName x us ts := by
  rw [replaceName, List.flatMap_cons, if_pos rfl]
  rfl

/-- All other tokens stay as they are. -/
theorem replaceName_cons {t : Token} (h : t ≠ .ident x) (ts : List Token) :
    replaceName x us (t :: ts) = t :: replaceName x us ts := by
  rw [replaceName, List.flatMap_cons, if_neg h]
  rfl

end Token

theorem Builtin.ident_name_ne (f : Builtin) {x : String} (hx : ofName? x = none) :
    Token.ident f.name ≠ .ident x := by
  intro h
  rw [← Token.ident.inj h, ofName?_name] at hx
  cases hx

section

variable {x : String} {s : Phrase .sum}

open Token

mutual

/-- The text of the new phrase is the old text with the new tokens in place of the name. -/
theorem Phrase.tokens_replace (hx : Builtin.ofName? x = none) : ∀ {k : Rank} (q : Phrase k),
    (Phrase.replace x s q).tokens = replaceName x s.tokens q.tokens
  | _, .num v => by
      rw [Phrase.replace, Phrase.tokens, replaceName_cons (by simp), replaceName_nil]
  | _, .name y free => by
      rw [Phrase.replace, Phrase.tokens]
      by_cases hy : y = x
      · rw [if_pos hy, hy, replaceName_self, replaceName_nil, Phrase.tokens, List.append_nil]
      · rw [if_neg hy, Phrase.tokens, replaceName_cons (by simpa using hy), replaceName_nil]
  | _, .group t => by
      rw [Phrase.replace, Phrase.tokens, Phrase.tokens, t.tokens_replace hx,
        replaceName_cons (by simp), replaceName_append, replaceName_cons (by simp), replaceName_nil]
  | _, .call f args accepted => by
      rw [Phrase.replace, Phrase.tokens, Phrase.tokens, args.tokens_replace hx,
        replaceName_cons (f.ident_name_ne hx), replaceName_cons (by simp), replaceName_append,
        replaceName_cons (by simp), replaceName_nil]
  | _, .ofAtom a => by
      rw [Phrase.replace, Phrase.tokens, Phrase.tokens, a.tokens_replace hx]
  | _, .pow a b => by
      rw [Phrase.replace, Phrase.tokens, Phrase.tokens, a.tokens_replace hx, b.tokens_replace hx,
        replaceName_append, replaceName_cons (by simp)]
  | _, .ofPower p => by
      rw [Phrase.replace, Phrase.tokens, Phrase.tokens, p.tokens_replace hx]
  | _, .plus p => by
      rw [Phrase.replace, Phrase.tokens, Phrase.tokens, p.tokens_replace hx,
        replaceName_cons (by simp)]
  | _, .minus p => by
      rw [Phrase.replace, Phrase.tokens, Phrase.tokens, p.tokens_replace hx,
        replaceName_cons (by simp)]
  | _, .ofSigned t => by
      rw [Phrase.replace, Phrase.tokens, Phrase.tokens, t.tokens_replace hx]
  | _, .mul _ _ p t => by
      rw [Phrase.replace, Phrase.tokens, Phrase.tokens, p.tokens_replace hx, t.tokens_replace hx,
        replaceName_append, replaceName_cons (by simp)]
  | _, .ofProduct p => by
      rw [Phrase.replace, Phrase.tokens, Phrase.tokens, p.tokens_replace hx]
  | _, .add _ _ t p => by
      rw [Phrase.replace, Phrase.tokens, Phrase.tokens, t.tokens_replace hx, p.tokens_replace hx,
        replaceName_append, replaceName_cons (by simp)]

theorem Arguments.tokens_replace (hx : Builtin.ofName? x = none) :
    ∀ {n : Nat} (args : Arguments n),
    (Arguments.replace x s args).tokens = replaceName x s.tokens args.tokens
  | _, .one t => by
      rw [Arguments.replace, Arguments.tokens, Arguments.tokens, t.tokens_replace hx]
  | _, .more args t => by
      rw [Arguments.replace, Arguments.tokens, Arguments.tokens, args.tokens_replace hx,
        t.tokens_replace hx, replaceName_append, replaceName_cons (by simp)]

end

end

/-! ## What the phrase stands for -/

theorem Expr.replaceAll_eq_map (x : String) (d : Expr) (args : List Expr) :
    Expr.replaceAll x d args = args.map (Expr.replace x d) := by
  induction args with
  | nil => rfl
  | cons a args ih => rw [replaceAll, ih, List.map_cons]

section

variable {x : String} {s : Phrase .sum}

mutual

theorem Phrase.tree_replace : ∀ {k : Rank} (q : Phrase k),
    (Phrase.replace x s q).tree = Expr.replace x s.tree q.tree
  | _, .num v => by rw [Phrase.replace, Phrase.tree, Expr.replace]
  | _, .name y free => by
      rw [Phrase.replace, Phrase.tree, Expr.replace]
      by_cases hy : y = x
      · rw [if_pos hy, if_pos hy, Phrase.tree]
      · rw [if_neg hy, if_neg hy, Phrase.tree]
  | _, .group t => by rw [Phrase.replace, Phrase.tree, Phrase.tree, t.tree_replace]
  | _, .call f args accepted => by
      rw [Phrase.replace, Phrase.tree, Phrase.tree, args.trees_replace, Expr.replace,
        Expr.replaceAll_eq_map]
  | _, .ofAtom a => by rw [Phrase.replace, Phrase.tree, Phrase.tree, a.tree_replace]
  | _, .pow a b => by
      rw [Phrase.replace, Phrase.tree, Phrase.tree, a.tree_replace, b.tree_replace,
        Expr.replace]
  | _, .ofPower p => by rw [Phrase.replace, Phrase.tree, Phrase.tree, p.tree_replace]
  | _, .plus p => by rw [Phrase.replace, Phrase.tree, Phrase.tree, p.tree_replace]
  | _, .minus p => by
      rw [Phrase.replace, Phrase.tree, Phrase.tree, p.tree_replace, Expr.replace]
  | _, .ofSigned t => by rw [Phrase.replace, Phrase.tree, Phrase.tree, t.tree_replace]
  | _, .mul _ _ p t => by
      rw [Phrase.replace, Phrase.tree, Phrase.tree, p.tree_replace, t.tree_replace,
        Expr.replace]
  | _, .ofProduct p => by rw [Phrase.replace, Phrase.tree, Phrase.tree, p.tree_replace]
  | _, .add _ _ t p => by
      rw [Phrase.replace, Phrase.tree, Phrase.tree, t.tree_replace, p.tree_replace,
        Expr.replace]

theorem Arguments.trees_replace : ∀ {n : Nat} (args : Arguments n),
    (Arguments.replace x s args).trees = args.trees.map (Expr.replace x s.tree)
  | _, .one t => by
      rw [Arguments.replace, Arguments.trees, Arguments.trees, t.tree_replace, List.map_singleton]
  | _, .more args t => by
      rw [Arguments.replace, Arguments.trees, Arguments.trees, args.trees_replace,
        t.tree_replace, List.map_append, List.map_singleton]

end

end

/-! ## What the tree is worth -/

namespace Expr

/-- **A leaf counts for its value alone**: in place of a name, a tree does what its value does. -/
theorem eval_settle_replace {scope : Scope} {d : Expr} {v : Float}
    (hd : (d.settle scope).eval = .ok v) (x : String) (e : Expr) :
    ((replace x d e).settle scope).eval = (e.settle (scope.insert x v)).eval := by
  induction e using Expr.induction with
  | num w => rw [replace, settle_num, settle_num]
  | var y =>
      rw [replace, settle_var]
      by_cases hy : y = x
      · have hvalue : (scope.insert x v).value? y = some v := by
          rw [Scope.value?, Scope.find?_insert, if_pos hy]
        rw [if_pos hy, hd, hvalue, Option.elim, eval]
      · have hvalue : (scope.insert x v).value? y = scope.value? y := by
          refine Scope.value?_congr ?_
          rw [Scope.find?_insert, if_neg hy]
        rw [if_neg hy, settle_var, hvalue]
  | neg e ih => rw [replace, settle_neg, settle_neg, eval, eval, ih]
  | bin op a b iha ihb => rw [replace, settle_bin, settle_bin, eval, eval, iha, ihb]
  | call f args ih =>
      have hvalues := evalAll_congr ih
      rw [replace, replaceAll_eq_map, settle_call, settle_call, List.map_map, eval, eval]
      exact congrArg (· >>= f.apply) hvalues

/-- The outcome of a tree whose calls are accepted is known from its value. -/
theorem WellApplied.checkedValue_eq {e : Expr} (h : e.WellApplied) :
    e.checkedValue
      = e.eval.bind fun v => if v.isFinite then .ok v else .error (.nonFiniteResult v) := by
  cases he : e.eval with
  | error f =>
      obtain ⟨x, hx, rfl⟩ := h.value_eq_error_iff.mp ((value_eq_eval e).trans he)
      exact checkedValue_of_names hx
  | ok v =>
      -- a name would have stopped the computation
      have hnames : e.names = [] := by
        cases hn : e.names with
        | nil => rfl
        | cons x xs =>
            have hx : e.names.head? = some x := by rw [hn, List.head?_cons]
            have herror := h.value_eq_error_iff.mpr ⟨x, hx, rfl⟩
            rw [value_eq_eval, he] at herror
            cases herror
      exact checkedValue_of_eval he hnames

theorem WellApplied.checkedValue_congr {a b : Expr} (ha : a.WellApplied) (hb : b.WellApplied)
    (h : a.eval = b.eval) : a.checkedValue = b.checkedValue := by
  rw [ha.checkedValue_eq, hb.checkedValue_eq, h]

end Expr

/-- **An expression does what its value does.** Where a text has a value in a scope, its tokens in
parentheses may stand for a name in another text: the outcome is that of the other text in the scope
with the name bound to the value, be it a number, a result that is not finite or a name that stands
for nothing. An evaluation reads a text without its blanks, and what is read with them is read so
too (`Parsed.ofText_compact`). -/
theorem evaluateTokens_replaceName (s t : String) (x : String) (scope : Scope) (v : Float)
    (ps pt : Parsed) (hx : Builtin.ofName? x = none)
    (hs : Parsed.ofText (Text.compact s) = .ok ps) (ht : Parsed.ofText (Text.compact t) = .ok pt)
    (hv : evaluate t scope = .ok v) :
    evaluateTokens (Token.replaceName x pt.tokens ps.tokens) scope
      = evaluate s (scope.insert x v) := by
  obtain ⟨-, qs, hqs, htrees, -⟩ := Parsed.stages hs
  obtain ⟨-, qt, hqt, htreet, -⟩ := Parsed.stages ht
  obtain ⟨hfinite, p, hp, heval, hfin⟩ := evaluate_eq_ok_iff.mp hv
  obtain rfl : pt = p := Except.ok.inj (ht.symm.trans hp)
  have hinsert : (scope.insert x v).checkFinite = .ok () :=
    Scope.checkFinite_eq_ok_iff.mpr ((Scope.checkFinite_eq_ok_iff.mp hfinite).insert x hfin)
  rw [htreet] at heval
  have hreplaced := (Phrase.replace x qt qs).wellApplied.settle scope
  have hinserted := qs.wellApplied.settle (scope.insert x v)
  calc evaluateTokens (Token.replaceName x pt.tokens ps.tokens) scope
      = evaluateTokens (Phrase.replace x qt qs).tokens scope := by
        rw [Phrase.tokens_replace hx, hqs, hqt]
    _ = ((Phrase.replace x qt qs).tree.settle scope).checkedValue := evaluateTokens_phrase _ _
    _ = (qs.tree.settle (scope.insert x v)).checkedValue := by
        refine hreplaced.checkedValue_congr hinserted ?_
        rw [Phrase.tree_replace, Expr.eval_settle_replace heval]
    _ = evaluate s (scope.insert x v) := by rw [evaluate_of_read hinsert hs, htrees]

/-- A sum in place of a base, of a denominator and of an argument, where without parentheses each
would fall apart. The value makes the denominator zero. -/
theorem evaluateTokens_replaceName_sum :
    let p := Scope.ofList [("y", 2)]
    Builtin.ofName? "x" = none ∧ evaluate "y - 3" p = .ok (-1)
    ∧ ∃ ps pt, Parsed.ofText "-x^2/(x + 1) + abs(x)" = .ok ps ∧ Parsed.ofText "y - 3" = .ok pt
      ∧ Token.line (Token.replaceName "x" pt.tokens ps.tokens)
        = "- ( y - 3 ) ^ 2 / ( ( y - 3 ) + 1 ) + abs ( ( y - 3 ) )"
      ∧ evaluateTokens (Token.replaceName "x" pt.tokens ps.tokens) p
        = evaluate "-x^2/(x + 1) + abs(x)" (p.insert "x" (-1)) := by
  intro p
  have hx : Builtin.ofName? "x" = none := by decide
  obtain ⟨ps, hs, hps⟩ := exists_ok_of_any (x := Parsed.ofText "-x^2/(x + 1) + abs(x)")
    (p := fun ps => decide (ps.tokens = [.op .sub, .ident "x", .op .pow, .num 2, .op .div, .lpar,
      .ident "x", .op .add, .num 1, .rpar, .op .add, .ident "abs", .lpar, .ident "x", .rpar]))
    (by decide +kernel)
  obtain ⟨pt, ht, hpt⟩ := exists_ok_of_any (x := Parsed.ofText "y - 3")
    (p := fun pt => decide (pt.tokens = [.ident "y", .op .sub, .num 3])) (by decide +kernel)
  obtain ⟨v, hv, hone⟩ := exists_ok_of_any (x := evaluate "y - 3" p)
    (p := fun v => decide (v = -1)) (by decide +kernel)
  obtain rfl := of_decide_eq_true hone
  have hline : Token.line (Token.replaceName "x" pt.tokens ps.tokens)
      = "- ( y - 3 ) ^ 2 / ( ( y - 3 ) + 1 ) + abs ( ( y - 3 ) )" := by
    rw [of_decide_eq_true hps, of_decide_eq_true hpt]
    decide +kernel
  exact ⟨hx, hv, ps, pt, hs, ht, hline,
    evaluateTokens_replaceName _ _ _ p _ ps pt hx (Parsed.ofText_compact hs)
      (Parsed.ofText_compact ht) hv⟩

end Reckon
