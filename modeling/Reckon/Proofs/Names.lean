import Reckon.Proofs.Machine

/-!
# The names of a tree, and why a tree without any has a value

A tree is computed only after its names have been looked up, and a tree that still holds a name is
refused. This module says what is left to go wrong after that, which is nothing: the names of the
settled tree are those that neither the scope nor the constants know (`names_settle`), and a tree
without names has a value if every call in it has a number of arguments that its function accepts
(`WellApplied.exists_eval`). The reader sees to the calls when it closes their parentheses, and
binding names does not touch them. Nor does the reader make names up: those of a tree are among
those of its tokens (`Phrase.names_sublist`).
-/

namespace Reckon

/-! ## Names -/

/-- The name that an item stands for, if it is one. -/
def Item.name? : Item → Option String
  | var x => some x
  | _ => none

/-- The names in a listing, in their order. -/
def Listing.names (l : Listing) : List String := l.filterMap Item.name?

theorem Listing.firstName?_eq_head? (l : Listing) : l.firstName? = l.names.head? := by
  induction l with
  | nil => rfl
  | cons i l ih =>
      cases i with
      | var x => rfl
      | num v => exact ih
      | op o => exact ih
      | call f n => exact ih

namespace Expr

/-- The names of a tree, from left to right. -/
def names (e : Expr) : List String := e.items.names

@[simp] theorem names_num (v : Float) : (num v).names = [] := rfl

@[simp] theorem names_var (x : String) : (var x).names = [x] := rfl

@[simp] theorem names_neg (e : Expr) : (neg e).names = e.names := by
  simp [names, items, Listing.names, Item.name?]

@[simp] theorem names_bin (op : BinOp) (a b : Expr) :
    (bin op a b).names = a.names ++ b.names := by
  simp [names, items, Listing.names, Item.name?]

theorem names_itemsOfAll (args : List Expr) :
    Listing.names (itemsOfAll args) = args.flatMap names := by
  induction args with
  | nil => rfl
  | cons a args ih =>
      rw [List.flatMap_cons, ← ih, itemsOfAll, Listing.names, List.filterMap_append]
      rfl

@[simp] theorem names_call (f : Builtin) (args : List Expr) :
    (call f args).names = args.flatMap names := by
  rw [← names_itemsOfAll]
  simp [names, items, Listing.names, Item.name?]

/-- The names that are left in a tree are those that stand for nothing. -/
theorem names_settle (e : Expr) (scope : Scope) :
    (e.settle scope).names = e.names.filter fun x => (scope.value? x).isNone := by
  induction e using Expr.induction with
  | num v => rw [settle_num]; rfl
  | var x =>
      rw [settle_var]
      cases hx : scope.value? x with
      | none => simp [hx]
      | some v => simp [hx]
  | neg e ih => rw [settle_neg, names_neg, names_neg, ih]
  | bin op a b iha ihb =>
      rw [settle_bin, names_bin, names_bin, iha, ihb, List.filter_append]
  | call f args ih =>
      rw [settle_call, names_call, names_call, List.flatMap_map, List.filter_flatMap,
        List.flatMap_def, List.flatMap_def, List.map_congr_left ih]

/-- There is nothing to look up in a tree without names. -/
theorem settle_of_names_eq_nil {e : Expr} (scope : Scope) (h : e.names = []) :
    e.settle scope = e := by
  induction e using Expr.induction with
  | num v => exact settle_num v scope
  | var x => cases h
  | neg e ih =>
      rw [names_neg] at h
      rw [settle_neg, ih h]
  | bin op a b iha ihb =>
      rw [names_bin, List.append_eq_nil_iff] at h
      rw [settle_bin, iha h.1, ihb h.2]
  | call f args ih =>
      rw [names_call, List.flatMap_eq_nil_iff] at h
      rw [settle_call, List.map_congr_left fun a ha => ih a ha (h a ha), List.map_id']

/-- The check for names finds the first one. -/
theorem checkBound_eq (e : Expr) : e.checkBound =
    match e.names.head? with
    | some x => .error (.unboundName x)
    | none => .ok () := by
  rw [checkBound, firstName?, listing_eq_items, Listing.firstName?_eq_head?]
  rfl

theorem checkBound_eq_ok_iff {e : Expr} : e.checkBound = .ok () ↔ e.names = [] := by
  rw [checkBound_eq]
  cases e.names with
  | nil => exact iff_of_true rfl rfl
  | cons x xs => exact ⟨by rintro ⟨⟩, by rintro ⟨⟩⟩

/-! ## Calls with the right number of arguments -/

/-- Every call in a tree has a number of arguments that its function accepts. -/
inductive WellApplied : Expr → Prop
  | num (v : Float) : WellApplied (num v)
  | var (x : String) : WellApplied (var x)
  | neg {e : Expr} (he : WellApplied e) : WellApplied (neg e)
  | bin {op : BinOp} {a b : Expr} (ha : WellApplied a) (hb : WellApplied b) :
      WellApplied (bin op a b)
  | call {f : Builtin} {args : List Expr} (accepted : f.arity.accepts args.length)
      (hargs : ∀ a ∈ args, WellApplied a) : WellApplied (call f args)

theorem WellApplied.settle {e : Expr} (h : e.WellApplied) (scope : Scope) :
    (e.settle scope).WellApplied := by
  induction h with
  | num v => rw [settle_num]; exact .num v
  | var x =>
      rw [settle_var]
      cases scope.value? x with
      | none => exact .var x
      | some v => exact .num v
  | neg he ih => rw [settle_neg]; exact .neg ih
  | bin ha hb iha ihb => rw [settle_bin]; exact .bin iha ihb
  | call accepted hargs ih =>
      rw [settle_call]
      refine .call (by rw [List.length_map]; exact accepted) fun b hb => ?_
      obtain ⟨a, ha, rfl⟩ := List.mem_map.mp hb
      exact ih a ha

end Expr

mutual

/-- A call of a phrase is accepted, so the tree has no other. -/
theorem Phrase.wellApplied : ∀ {k : Rank} (q : Phrase k), q.tree.WellApplied
  | _, .num v => .num v
  | _, .name x _ => .var x
  | _, .group s => s.wellApplied
  | _, .call f args accepted => .call (by rw [args.length_trees]; exact accepted) args.wellApplied
  | _, .ofAtom a => a.wellApplied
  | _, .pow a b => .bin a.wellApplied b.wellApplied
  | _, .ofPower p => p.wellApplied
  | _, .plus p => p.wellApplied
  | _, .minus p => .neg p.wellApplied
  | _, .ofSigned s => s.wellApplied
  | _, .mul _ _ p s => .bin p.wellApplied s.wellApplied
  | _, .ofProduct p => p.wellApplied
  | _, .add _ _ s p => .bin s.wellApplied p.wellApplied

theorem Arguments.wellApplied : ∀ {n : Nat} (args : Arguments n), ∀ e ∈ args.trees, e.WellApplied
  | _, .one s, e, he => by
      obtain rfl := List.mem_singleton.mp he
      exact s.wellApplied
  | _, .more args s, e, he => by
      rcases List.mem_append.mp he with he | he
      · exact args.wellApplied e he
      · obtain rfl := List.mem_singleton.mp he
        exact s.wellApplied

end

/-! ## The names among the tokens -/

namespace Token

/-- The name that a token is, if it is one. -/
def name? : Token → Option String
  | ident x => some x
  | _ => none

/-- The names among some tokens, those of functions included. -/
def names (ts : List Token) : List String := ts.filterMap name?

@[simp] theorem names_nil : names [] = [] := rfl

@[simp] theorem names_append (ts us : List Token) : names (ts ++ us) = names ts ++ names us :=
  List.filterMap_append

@[simp] theorem names_cons (t : Token) (ts : List Token) :
    names (t :: ts) = t.name?.toList ++ names ts := by
  unfold names
  cases h : t.name? with
  | none => rw [List.filterMap_cons_none h]; rfl
  | some x => rw [List.filterMap_cons_some h]; rfl

end Token

mutual

/-- The names in the expression of a phrase are among those of its tokens. -/
theorem Phrase.names_sublist : ∀ {k : Rank} (q : Phrase k),
    q.tree.names.Sublist (Token.names q.tokens)
  | _, .num _ => List.nil_sublist _
  | _, .name _ _ => .refl _
  | _, .group s => by simpa [Phrase.tree, Phrase.tokens, Token.name?] using s.names_sublist
  | _, .call f args _ => by
      simpa [Phrase.tree, Phrase.tokens, Token.name?] using args.names_sublist.cons f.name
  | _, .ofAtom a => a.names_sublist
  | _, .pow a b => by
      simpa [Phrase.tree, Phrase.tokens, Token.name?] using a.names_sublist.append b.names_sublist
  | _, .ofPower p => p.names_sublist
  | _, .plus p => by simpa [Phrase.tree, Phrase.tokens, Token.name?] using p.names_sublist
  | _, .minus p => by simpa [Phrase.tree, Phrase.tokens, Token.name?] using p.names_sublist
  | _, .ofSigned s => s.names_sublist
  | _, .mul _ _ p s => by
      simpa [Phrase.tree, Phrase.tokens, Token.name?] using p.names_sublist.append s.names_sublist
  | _, .ofProduct p => p.names_sublist
  | _, .add _ _ s p => by
      simpa [Phrase.tree, Phrase.tokens, Token.name?] using s.names_sublist.append p.names_sublist

theorem Arguments.names_sublist : ∀ {n : Nat} (args : Arguments n),
    (args.trees.flatMap Expr.names).Sublist (Token.names args.tokens)
  | _, .one s => by simpa [Arguments.trees, Arguments.tokens] using s.names_sublist
  | _, .more args s => by
      simpa [Arguments.trees, Arguments.tokens, Token.name?] using
        args.names_sublist.append s.names_sublist

end

theorem Parsed.names_sublist {s : String} {p : Parsed} (h : Parsed.ofText s = .ok p) :
    p.tree.names.Sublist (Token.names p.tokens) := by
  obtain ⟨-, q, hq, htree, -⟩ := Parsed.stages h
  rw [htree, ← hq]
  exact q.names_sublist

/-! ## Values -/

/-- A function has a value at every accepted number of arguments. -/
theorem Builtin.exists_apply {f : Builtin} {args : List Float}
    (h : f.arity.accepts args.length = true) : ∃ v, f.apply args = .ok v := by
  match args, h with
  | [], h => cases f <;> cases h
  | [x], h => cases f <;> first | exact ⟨_, rfl⟩ | cases h
  | [x, y], h => cases f <;> first | exact ⟨_, rfl⟩ | cases h
  | x :: y :: z :: rest, h =>
      cases f with
      | min => exact ⟨_, rfl⟩
      | max => exact ⟨_, rfl⟩
      | _ => simp [Builtin.arity, Arity.accepts] at h

namespace Expr

theorem exists_evalAll {args : List Expr} (h : ∀ a ∈ args, ∃ v, a.eval = .ok v) :
    ∃ vs, evalAll args = .ok vs := by
  induction args with
  | nil => exact ⟨[], rfl⟩
  | cons a args ih =>
      obtain ⟨v, hv⟩ := h a (.head _)
      obtain ⟨vs, hvs⟩ := ih fun b hb => h b (.tail _ hb)
      exact ⟨v :: vs, by rw [evalAll, hv, hvs]; rfl⟩

/-- **What can be computed.** Without names, and with every call accepted, a tree has a value. -/
theorem WellApplied.exists_eval {e : Expr} (h : e.WellApplied) (hnames : e.names = []) :
    ∃ v, e.eval = .ok v := by
  induction h with
  | num v => exact ⟨v, by rw [eval]⟩
  | var x => cases hnames
  | neg he ih =>
      rw [names_neg] at hnames
      obtain ⟨v, hv⟩ := ih hnames
      exact ⟨-v, by rw [eval, hv]; rfl⟩
  | @bin op a b ha hb iha ihb =>
      rw [names_bin, List.append_eq_nil_iff] at hnames
      obtain ⟨v, hv⟩ := iha hnames.1
      obtain ⟨w, hw⟩ := ihb hnames.2
      exact ⟨op.apply v w, by rw [eval, hv, hw]; rfl⟩
  | @call f args accepted hargs ih =>
      rw [names_call, List.flatMap_eq_nil_iff] at hnames
      obtain ⟨vs, hvs⟩ := exists_evalAll fun a ha => ih a ha (hnames a ha)
      have hlen : f.arity.accepts vs.length = true := by
        rw [length_of_evalAll hvs]
        exact accepted
      obtain ⟨v, hv⟩ := Builtin.exists_apply hlen
      exact ⟨v, by rw [eval, hvs]; exact hv⟩

/-- A tree with a value is computed, and only the size of the value is left to be looked at. -/
theorem checkedValue_of_eval {e : Expr} {v : Float} (h : e.eval = .ok v) (hnames : e.names = []) :
    e.checkedValue = if v.isFinite then .ok v else .error (.nonFiniteResult v) := by
  unfold checkedValue finiteValue
  rw [checkBound_eq_ok_iff.mpr hnames, value_eq_eval, h]
  rfl

theorem checkedValue_of_names {e : Expr} {x : String} (h : e.names.head? = some x) :
    e.checkedValue = .error (.unboundName x) := by
  unfold checkedValue
  rw [checkBound_eq, h]
  rfl

end Expr

end Reckon
