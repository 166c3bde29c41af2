import Reckon.Analysis
import Reckon.Proofs.Grammar.Derived
import Reckon.Proofs.Scope

/-!
# The stages of an evaluation

An evaluation that succeeds has passed every stage, and this module takes it apart: what was
admitted, what was read, what the names became, and what was computed. Later modules use these
facts and never open `analyse` or `evaluate` themselves.
-/

namespace Reckon

/-- A computation in two steps that succeeds has succeeded in both. -/
theorem exists_of_bind_eq_ok {α β : Type} {x : Except Fault α} {f : α → Except Fault β} {b : β}
    (h : x >>= f = .ok b) : ∃ a, x = .ok a ∧ f a = .ok b := by
  cases x with
  | error e => cases h
  | ok a => exact ⟨a, rfl, h⟩

/-- A computation that is seen to succeed, with a value that is seen to pass a test. -/
theorem exists_ok_of_any {ε α : Type} {x : Except ε α} {p : α → Bool}
    (h : x.toOption.any p = true) : ∃ a, x = .ok a ∧ p a = true := by
  cases x with
  | error e => cases h
  | ok a => exact ⟨a, rfl, h⟩

/-! ## Reading a text -/

theorem Parsed.stages {s : String} {p : Parsed} (h : Parsed.ofText s = .ok p) :
    Token.scan s = .ok p.tokens
    ∧ ∃ q : Phrase .sum, q.tokens = p.tokens ∧ p.tree = q.tree ∧ p.listing = p.tree.listing := by
  unfold Parsed.ofText at h
  obtain ⟨tokens, hs, h⟩ := exists_of_bind_eq_ok h
  obtain ⟨l, hl, h⟩ := exists_of_bind_eq_ok h
  -- the reader never makes a listing that cannot be read back
  obtain ⟨q, hq, rfl, hread⟩ := exists_tree_of_ofTokens hl
  obtain ⟨e, he, h⟩ := exists_of_bind_eq_ok h
  obtain rfl : q.tree = e := Except.ok.inj (hread.symm.trans he)
  cases h
  exact ⟨hs, q, hq, rfl, rfl⟩

/-- A text whose tokens are those of a sum is read as its tree. -/
theorem Parsed.ofText_eq {s : String} {q : Phrase .sum} (h : Token.scan s = .ok q.tokens) :
    Parsed.ofText s = .ok ⟨q.tokens, q.tree.listing, q.tree⟩ := by
  unfold Parsed.ofText
  simp only [h, q.ofTokens_tokens, Expr.ofListing_listing, bind, Except.bind, pure, Except.pure]

theorem Parsed.ofText_empty (p : Parsed) : Parsed.ofText "" ≠ .ok p := by
  intro h
  have hscan : Token.scan "" = .ok [] := by
    rw [Token.scan, String.toList_empty, Token.scanFrom, List.reverse_nil]
  rw [Parsed.ofText, hscan] at h
  cases h

/-! ## The bound tree -/

namespace Expr

/-- An empty scope is not asked, and would not know any name. -/
theorem bindIn_some (e : Expr) (scope : Scope) : e.bindIn (some scope) = e.bind scope.find? := by
  rw [bindIn, Option.filter_some]
  cases hempty : scope.isEmpty with
  | false => rfl
  | true =>
      have hbindings : scope.bindings = [] := List.isEmpty_iff.mp hempty
      have hnone : scope.find? = fun _ => none := by
        funext x
        rw [Scope.find?, hbindings]
        rfl
      rw [bind_eq_subst, hnone, subst_none]
      rfl

/-- No scope is as good as an empty one. -/
theorem bindIn_eq_bind (e : Expr) (scope : Option Scope) :
    e.bindIn scope = e.bind (scope.getD ∅).find? := by
  cases scope with
  | some scope => exact e.bindIn_some scope
  | none =>
      change e = e.bind fun _ => none
      rw [bind_eq_subst, subst_none]

theorem settleIn_eq_settle (e : Expr) (scope : Option Scope) :
    e.settleIn scope = e.settle (scope.getD ∅) := by
  rw [settle, settleIn, settleIn, bindIn_eq_bind, bindIn_some]

theorem settle_eq_subst (e : Expr) (scope : Scope) :
    e.settle scope = (e.subst scope.find?).subst constant? := by
  rw [settle, settleIn, bindIn_some, bind_eq_subst, bind_eq_subst]

theorem settle_num (v : Float) (scope : Scope) : (num v).settle scope = num v := by
  simp only [settle_eq_subst, subst]

theorem settle_neg (e : Expr) (scope : Scope) : (neg e).settle scope = neg (e.settle scope) := by
  simp only [settle_eq_subst, subst]

theorem settle_bin (op : BinOp) (a b : Expr) (scope : Scope) :
    (bin op a b).settle scope = bin op (a.settle scope) (b.settle scope) := by
  simp only [settle_eq_subst, subst]

theorem settle_call (f : Builtin) (args : List Expr) (scope : Scope) :
    (call f args).settle scope = call f (args.map (·.settle scope)) := by
  simp only [settle_eq_subst, subst, substAll_eq_map, List.map_map]
  rfl

/-- Names are looked up, and it does not matter in what order the scope is gone through. -/
theorem settle_inOrder (e : Expr) (scope : Scope) (order : Scope.Order) :
    e.settle (scope.inOrder order) = e.settle scope := by
  rw [settle_eq_subst, settle_eq_subst]
  rfl

end Expr

/-- The number that a name stands for: the scope's, and a constant's only if the scope has none. -/
def Scope.value? (scope : Scope) (x : String) : Option Float :=
  match scope.find? x with
  | some v => some v
  | none => constant? x

/-- A name ends up as the number that it stands for. -/
theorem Expr.settle_var (x : String) (scope : Scope) :
    (var x).settle scope = (scope.value? x).elim (var x) num := by
  rw [settle_eq_subst, subst, Scope.value?]
  cases scope.find? x with
  | none => rw [Option.elim, subst]
  | some v => rfl

/-! ## The value -/

/-- A listing that can be computed holds no name. -/
theorem Expr.firstName?_of_run {l : Listing} {stack s : List Float}
    (h : Listing.run numbers l stack = .ok s) : l.firstName? = none := by
  induction l generalizing stack with
  | nil => rfl
  | cons i l ih =>
      rw [Listing.run] at h
      split at h
      · cases i with
        | var x => rename_i hstep; cases hstep
        | num v => exact ih h
        | op o => exact ih h
        | call f n => exact ih h
      · cases h

/-- A value passes the checks if it is the tree's and finite: a tree that has a value holds no
name. -/
theorem Expr.checkedValue_eq_ok_iff {e : Expr} {v : Float} :
    e.checkedValue = .ok v ↔ e.eval = .ok v ∧ v.isFinite = true := by
  unfold checkedValue finiteValue checkBound
  rw [← value_eq_eval]
  constructor
  · intro h
    obtain ⟨_, -, h⟩ := exists_of_bind_eq_ok h
    obtain ⟨w, hw, h⟩ := exists_of_bind_eq_ok h
    split at h
    · cases h
      exact ⟨hw, ‹_›⟩
    · cases h
  · rintro ⟨hv, hfin⟩
    -- the check for names comes first, but no value could be computed past one
    have hname : e.firstName? = none := by
      unfold value Listing.result at hv
      split at hv
      · exact firstName?_of_run ‹_›
      · cases hv
      · cases hv
    rw [hname, hv]
    exact if_pos hfin

namespace Expr

/-- Trees with the same values in turn have the same values together. -/
theorem evalAll_congr {args : List Expr} {f g : Expr → Expr}
    (h : ∀ a ∈ args, (f a).eval = (g a).eval) : evalAll (args.map f) = evalAll (args.map g) := by
  induction args with
  | nil => rfl
  | cons a args ih =>
      rw [List.map_cons, List.map_cons, evalAll, evalAll, h a (.head _),
        ih fun b hb => h b (.tail _ hb)]

end Expr

/-! ## The whole -/

/-- The stages of an evaluation in a scope. -/
theorem evaluate_eq_bind (text : String) (scope : Scope) :
    evaluate text scope = (admitText text scope).bind fun s =>
      (Parsed.ofText s).bind fun p => (p.tree.settle scope).checkedValue := rfl

theorem analyse_eq_bind (text : String) (scope : Scope) :
    analyse text scope = (admitText text scope).bind fun s =>
      (Parsed.ofText s).bind fun p => (p.tree.settle scope).checkedValue.bind fun v =>
        .ok ⟨p.tokens, p.listing, p.tree, p.tree.settle scope, v⟩ := rfl

/-- A text that is not admitted is not evaluated. -/
theorem evaluate_of_refused {text : String} {scope : Scope} {f : Fault}
    (h : admitText text scope = .error f) : evaluate text scope = .error f := by
  rw [evaluate_eq_bind, h]
  rfl

theorem analyse_of_refused {text : String} {scope : Scope} {f : Fault}
    (h : admitText text scope = .error f) : analyse text scope = .error f := by
  rw [analyse_eq_bind, h]
  rfl

/-- What an analysis holds: each stage is what the one before it gives. -/
structure Analysis.Stages (text : String) (scope : Scope) (a : Analysis) : Prop where
  /-- The text is not blank and the scope is finite. -/
  admitted : admitText text scope = .ok (Text.compact text)
  /-- The text without its blanks is read. -/
  read : Parsed.ofText (Text.compact text) = .ok ⟨a.tokens, a.listing, a.parsed⟩
  /-- The scope and the constants bind the names. -/
  bound : a.bound = a.parsed.settle scope
  /-- The bound tree has a finite value. -/
  value : a.bound.checkedValue = .ok a.value

/-- A text that is not blank is admitted if its scope is finite. -/
theorem admitText_some (text : String) (scope : Scope) :
    admitText text scope = if (Text.compact text).isEmpty then .error .blankText
      else scope.checkFinite.map fun _ => Text.compact text := by
  unfold admitText
  dsimp only
  split
  · rfl
  · cases scope.checkFinite <;> rfl

theorem admitText_eq_ok {text s : String} {scope : Scope} (h : admitText text scope = .ok s) :
    s = Text.compact text := by
  rw [admitText_some] at h
  split at h
  · cases h
  · cases hs : scope.checkFinite with
    | error f => rw [hs] at h; cases h
    | ok u => rw [hs] at h; cases h; rfl

theorem admitText_checkFinite {text s : String} {scope : Scope}
    (h : admitText text scope = .ok s) : scope.checkFinite = .ok () := by
  rw [admitText_some] at h
  split at h
  · cases h
  · cases hs : scope.checkFinite with
    | error f => rw [hs] at h; cases h
    | ok u => rfl

/-- A text that can be read is not blank, so nothing but the scope can keep it out. -/
theorem admitText_of_read {text : String} {scope : Scope} {p : Parsed}
    (hs : scope.checkFinite = .ok ()) (hp : Parsed.ofText (Text.compact text) = .ok p) :
    admitText text scope = .ok (Text.compact text) := by
  have hne : (Text.compact text).isEmpty = false := by
    rw [← Bool.not_eq_true, String.isEmpty_iff]
    intro hempty
    rw [hempty] at hp
    exact Parsed.ofText_empty p hp
  rw [admitText_some, hne, hs]
  rfl

/-- What a text that can be read is worth in a finite scope. -/
theorem evaluate_of_read {text : String} {scope : Scope} {p : Parsed}
    (hs : scope.checkFinite = .ok ()) (hp : Parsed.ofText (Text.compact text) = .ok p) :
    evaluate text scope = (p.tree.settle scope).checkedValue := by
  rw [evaluate_eq_bind, admitText_of_read hs hp]
  change (Parsed.ofText (Text.compact text)).bind _ = _
  rw [hp]
  rfl

theorem analyse_stages {text : String} {scope : Scope} {a : Analysis}
    (h : analyse text scope = .ok a) : a.Stages text scope := by
  rw [analyse_eq_bind] at h
  obtain ⟨s, hs, h⟩ := exists_of_bind_eq_ok h
  obtain ⟨p, hp, h⟩ := exists_of_bind_eq_ok h
  obtain ⟨v, hv, h⟩ := exists_of_bind_eq_ok h
  cases h
  obtain rfl := admitText_eq_ok hs
  exact ⟨hs, hp, rfl, hv⟩

theorem Analysis.Stages.analyse_eq {text : String} {scope : Scope} {a : Analysis}
    (h : a.Stages text scope) : analyse text scope = .ok a := by
  have hvalue := h.value
  rw [h.bound] at hvalue
  rw [analyse_eq_bind, h.admitted]
  change (Parsed.ofText (Text.compact text)).bind _ = _
  rw [h.read]
  change (a.parsed.settle scope).checkedValue.bind _ = _
  rw [hvalue, ← h.bound]
  rfl

/-- `evaluate` does what `analyse` does and keeps the value. -/
theorem evaluate_eq_map_analyse (text : String) (scope : Scope) :
    evaluate text scope = (analyse text scope).map (·.value) := by
  rw [evaluate_eq_bind, analyse_eq_bind]
  cases admitText text scope with
  | error f => rfl
  | ok s =>
      change (Parsed.ofText s).bind _ = ((Parsed.ofText s).bind _).map _
      cases Parsed.ofText s with
      | error f => rfl
      | ok p =>
          change (p.tree.settle scope).checkedValue
            = ((p.tree.settle scope).checkedValue.bind _).map _
          cases (p.tree.settle scope).checkedValue <;> rfl

/-- A text has a value in a finite scope if it can be read and the tree it is read as has one. -/
theorem evaluate_eq_ok_iff {text : String} {scope : Scope} {v : Float} :
    evaluate text scope = .ok v ↔ scope.checkFinite = .ok ()
      ∧ ∃ p, Parsed.ofText (Text.compact text) = .ok p
        ∧ (p.tree.settle scope).eval = .ok v ∧ v.isFinite = true := by
  constructor
  · intro h
    rw [evaluate_eq_map_analyse] at h
    cases ha : analyse text scope with
    | error f => rw [ha] at h; cases h
    | ok a =>
        rw [ha] at h
        cases h
        have hst := analyse_stages ha
        exact ⟨admitText_checkFinite hst.admitted, _, hst.read,
          Expr.checkedValue_eq_ok_iff.mp (hst.bound ▸ hst.value)⟩
  · rintro ⟨hs, p, hp, hv⟩
    rw [evaluate_of_read hs hp]
    exact Expr.checkedValue_eq_ok_iff.mpr hv

/-- The order of a scope matters for the binding that is refused, if there is one. -/
theorem analyse_inOrder (text : String) (scope : Scope) {order : Scope.Order}
    (h : (scope.inOrder order).firstNonFinite? = scope.firstNonFinite?) :
    analyse text (scope.inOrder order) = analyse text scope := by
  have hcheck : (scope.inOrder order).checkFinite = scope.checkFinite := by
    rw [Scope.checkFinite, Scope.checkFinite, h]
  rw [analyse_eq_bind, analyse_eq_bind, admitText_some, admitText_some, hcheck]
  simp only [Expr.settle_inOrder]

/-! ## Without a scope -/

/-- An empty scope refuses nothing. -/
theorem admitText_eq_getD (text : String) (scope : Option Scope) :
    admitText text scope = admitText text (scope.getD ∅) := by
  cases scope with
  | some scope => rfl
  | none =>
      unfold admitText
      dsimp only
      split <;> rfl

/-- **No scope is an empty scope.** The text is refused for the same cause or read, no name is bound
but by the constants, and an empty scope that is passed over binds none either. -/
theorem analyseIn_eq_analyse (text : String) (scope : Option Scope) :
    analyseIn text scope = analyse text (scope.getD ∅) := by
  unfold analyseIn
  simp only [Expr.settleIn_eq_settle, admitText_eq_getD text scope]
  rfl

theorem evaluateIn_eq_evaluate (text : String) (scope : Option Scope) :
    evaluateIn text scope = evaluate text (scope.getD ∅) := by
  unfold evaluateIn
  simp only [Expr.settleIn_eq_settle, admitText_eq_getD text scope]
  rfl

end Reckon
