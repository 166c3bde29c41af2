import Reckon.Proofs.Names
import Reckon.Simple

/-!
# What decides the outcome of an evaluation

The stages of an evaluation can fail in many more ways than a person ever sees: a listing that
leaves no value, a call that finds too few arguments, a tree with a name in it. `Verdict` lists the
causes that are left, in the order in which they are looked at, and `evaluate_verdict` says that an
evaluation has exactly the outcome of the first that applies.

Two facts leave nothing else. What the reader lists is the listing of a tree, so it is read back;
and every call of such a tree is accepted, so with its names bound the tree has a value.
-/

namespace Reckon

/-! ## What is admitted -/

/-- A text with nothing but blanks in it. -/
def Text.AllBlank (s : String) : Prop := ∀ c ∈ s.toList, Text.isBlank c = true

theorem Text.toList_compact_eq_nil_iff {s : String} : (compact s).toList = [] ↔ AllBlank s := by
  rw [toList_compact, List.filter_eq_nil_iff]
  simp only [Bool.not_eq_true', Bool.not_eq_false, AllBlank]

theorem Text.isEmpty_compact_iff {s : String} : (compact s).isEmpty = true ↔ AllBlank s := by
  rw [String.isEmpty_iff, ← String.toList_eq_nil_iff, toList_compact_eq_nil_iff]

/-- A text that is looked at, in a scope that can be used. -/
structure Admitted (text : String) (scope : Scope) : Prop where
  shown : ¬ Text.AllBlank text
  finite : scope.IsFinite

theorem admitText_of_allBlank {text : String} (scope : Scope) (h : Text.AllBlank text) :
    admitText text scope = .error .blankText := by
  rw [admitText_some, if_pos (Text.isEmpty_compact_iff.mpr h)]

theorem admitText_of_not_allBlank {text : String} (scope : Scope) (h : ¬ Text.AllBlank text) :
    admitText text scope = scope.checkFinite.map fun _ => Text.compact text := by
  rw [admitText_some, if_neg (mt Text.isEmpty_compact_iff.mp h)]

/-- The first binding that is not finite is what a scope is refused for. -/
theorem admitText_of_nonFinite {text : String} {scope : Scope} {b : String × Float}
    (shown : ¬ Text.AllBlank text) (h : scope.firstNonFinite? = some b) :
    admitText text scope = .error (.nonFiniteBinding b.1 b.2) := by
  rw [admitText_of_not_allBlank scope shown, Scope.checkFinite, h]
  rfl

theorem Admitted.admitText_eq {text : String} {scope : Scope} (h : Admitted text scope) :
    admitText text scope = .ok (Text.compact text) := by
  rw [admitText_of_not_allBlank scope h.shown, Scope.checkFinite_eq_ok_iff.mpr h.finite]
  rfl

/-- An admitted text is read, and the tree is computed with its names bound. -/
theorem Admitted.evaluate_eq {text : String} {scope : Scope} (h : Admitted text scope) :
    evaluate text scope
      = (Parsed.ofText (Text.compact text)).bind fun p => (p.tree.settle scope).checkedValue := by
  rw [evaluate_eq_bind, h.admitText_eq]
  rfl

/-! ## What is read -/

/-- A text is not read if it is not cut into tokens, or if they make no expression. Reading the
listing back does not fail. -/
theorem Parsed.ofText_eq_error_iff {s : String} {f : Fault} :
    Parsed.ofText s = .error f
      ↔ Token.scan s = .error f ∨ ∃ ts, Token.scan s = .ok ts ∧ Listing.ofTokens ts = .error f := by
  unfold Parsed.ofText
  cases hs : Token.scan s with
  | error g => simp [bind, Except.bind]
  | ok ts =>
      cases hl : Listing.ofTokens ts with
      | error g => simp [bind, Except.bind, hl]
      | ok l =>
          obtain ⟨q, -, -, he⟩ := exists_tree_of_ofTokens hl
          simp [bind, Except.bind, pure, Except.pure, hl, he]

theorem Parsed.wellApplied {s : String} {p : Parsed} (h : Parsed.ofText s = .ok p) :
    p.tree.WellApplied := by
  obtain ⟨-, q, -, htree, -⟩ := Parsed.stages h
  rw [htree]
  exact q.wellApplied

/-- A tree whose calls are accepted has a value in a scope that binds all its names. -/
theorem Expr.WellApplied.exists_eval_settle {e : Expr} (h : e.WellApplied) {scope : Scope}
    (hnames : (e.settle scope).names = []) : ∃ v, (e.settle scope).eval = .ok v :=
  (h.settle scope).exists_eval hnames

/-- No name is left in a settled tree if each of them stands for something. -/
theorem Expr.names_settle_eq_nil_iff {e : Expr} {scope : Scope} :
    (e.settle scope).names = [] ↔ ∀ x ∈ e.names, (scope.value? x).isSome = true := by
  rw [names_settle, List.filter_eq_nil_iff]
  simp only [Option.isNone_iff_eq_none, Option.isSome_iff_ne_none, ne_eq]

namespace Admitted

variable {text : String} {scope : Scope} {p : Parsed}

/-- The first name without a meaning is reported. -/
theorem evaluate_of_unbound (admitted : Admitted text scope)
    (read : Parsed.ofText (Text.compact text) = .ok p) {x : String}
    (h : p.tree.names.find? (fun x => (scope.value? x).isNone) = some x) :
    evaluate text scope = .error (.unboundName x) := by
  have hhead : (p.tree.settle scope).names.head? = some x := by
    rw [Expr.names_settle, List.head?_filter, h]
  rw [admitted.evaluate_eq, read]
  exact Expr.checkedValue_of_names hhead

/-- With its names bound a tree is computed, and only the size of the value is left to be looked
at. -/
theorem evaluate_of_eval (admitted : Admitted text scope)
    (read : Parsed.ofText (Text.compact text) = .ok p)
    (bound : ∀ x ∈ p.tree.names, (scope.value? x).isSome = true) {v : Float}
    (h : (p.tree.settle scope).eval = .ok v) :
    evaluate text scope = if v.isFinite then .ok v else .error (.nonFiniteResult v) := by
  rw [admitted.evaluate_eq, read]
  exact Expr.checkedValue_of_eval h (Expr.names_settle_eq_nil_iff.mpr bound)

end Admitted

/-! ## The verdict -/

/-- The outcome of an evaluation, by the first of its causes. -/
inductive Verdict (text : String) (scope : Scope) : Except Fault Float → Prop
  /-- There is nothing to read, whatever the scope. -/
  | blank (h : Text.AllBlank text) : Verdict text scope (.error .blankText)
  /-- The scope is not finite, whether the text uses the name or not. Of several bindings the first
  is reported, in the order of the scope. -/
  | badScope {x : String} {v : Float} (shown : ¬ Text.AllBlank text)
      (h : scope.firstNonFinite? = some (x, v)) :
      Verdict text scope (.error (.nonFiniteBinding x v))
  /-- The text is not cut into tokens. -/
  | notScanned {f : Fault} (admitted : Admitted text scope)
      (h : Token.scan (Text.compact text) = .error f) : Verdict text scope (.error f)
  /-- The tokens make no expression. -/
  | notListed {ts : List Token} {f : Fault} (admitted : Admitted text scope)
      (scanned : Token.scan (Text.compact text) = .ok ts) (h : Listing.ofTokens ts = .error f) :
      Verdict text scope (.error f)
  /-- A name stands for nothing; the first of them is reported. -/
  | unbound {p : Parsed} {x : String} (admitted : Admitted text scope)
      (read : Parsed.ofText (Text.compact text) = .ok p)
      (h : p.tree.names.find? (fun x => (scope.value? x).isNone) = some x) :
      Verdict text scope (.error (.unboundName x))
  /-- The value is infinite or no number. -/
  | nonFinite {p : Parsed} {v : Float} (admitted : Admitted text scope)
      (read : Parsed.ofText (Text.compact text) = .ok p)
      (bound : ∀ x ∈ p.tree.names, (scope.value? x).isSome = true)
      (h : (p.tree.settle scope).eval = .ok v) (hv : v.isFinite = false) :
      Verdict text scope (.error (.nonFiniteResult v))
  /-- The value is a finite number. -/
  | value {p : Parsed} {v : Float} (admitted : Admitted text scope)
      (read : Parsed.ofText (Text.compact text) = .ok p)
      (bound : ∀ x ∈ p.tree.names, (scope.value? x).isSome = true)
      (h : (p.tree.settle scope).eval = .ok v) (hv : v.isFinite = true) :
      Verdict text scope (.ok v)

namespace Verdict

variable {text : String} {scope : Scope}

/-- A text that is read has the verdict of its tree. -/
theorem of_parsed {p : Parsed} (admitted : Admitted text scope)
    (read : Parsed.ofText (Text.compact text) = .ok p) :
    Verdict text scope (evaluate text scope) := by
  cases hx : p.tree.names.find? (fun x => (scope.value? x).isNone) with
  | some x =>
      rw [admitted.evaluate_of_unbound read hx]
      exact .unbound admitted read hx
  | none =>
      have hbound : ∀ x ∈ p.tree.names, (scope.value? x).isSome = true := by
        simpa only [List.find?_eq_none, Option.isNone_iff_eq_none, Option.isSome_iff_ne_none]
          using hx
      obtain ⟨v, hv⟩ := (Parsed.wellApplied read).exists_eval_settle
        (Expr.names_settle_eq_nil_iff.mpr hbound)
      rw [admitted.evaluate_of_eval read hbound hv]
      split
      · exact .value admitted read hbound hv ‹_›
      · exact .nonFinite admitted read hbound hv ((Bool.not_eq_true _).mp ‹_›)

/-- Some cause applies. -/
theorem of_evaluate (text : String) (scope : Scope) :
    Verdict text scope (evaluate text scope) := by
  by_cases hblank : Text.AllBlank text
  · rw [evaluate_of_refused (admitText_of_allBlank scope hblank)]
    exact .blank hblank
  cases hscope : scope.firstNonFinite? with
  | some b =>
      rw [evaluate_of_refused (admitText_of_nonFinite hblank hscope)]
      exact .badScope hblank hscope
  | none =>
      have admitted : Admitted text scope := ⟨hblank, Scope.firstNonFinite?_eq_none_iff.mp hscope⟩
      cases hread : Parsed.ofText (Text.compact text) with
      | ok p => exact of_parsed admitted hread
      | error f =>
          rw [admitted.evaluate_eq, hread]
          rcases Parsed.ofText_eq_error_iff.mp hread with hs | ⟨ts, hs, hl⟩
          · exact .notScanned admitted hs
          · exact .notListed admitted hs hl

/-- The cause that applies decides. -/
theorem evaluate_eq {r : Except Fault Float} (h : Verdict text scope r) :
    evaluate text scope = r := by
  cases h with
  | blank h => exact evaluate_of_refused (admitText_of_allBlank scope h)
  | badScope shown h => exact evaluate_of_refused (admitText_of_nonFinite shown h)
  | notScanned admitted h =>
      rw [admitted.evaluate_eq, Parsed.ofText_eq_error_iff.mpr (.inl h)]
      rfl
  | notListed admitted scanned h =>
      rw [admitted.evaluate_eq, Parsed.ofText_eq_error_iff.mpr (.inr ⟨_, scanned, h⟩)]
      rfl
  | unbound admitted read h => exact admitted.evaluate_of_unbound read h
  | nonFinite admitted read bound h hv => rw [admitted.evaluate_of_eval read bound h, hv]; rfl
  | value admitted read bound h hv => rw [admitted.evaluate_of_eval read bound h, hv]; rfl

end Verdict

/-- The order of a scope that is not finite decides which of its bindings is reported, and nothing
else. -/
theorem exists_order_evaluate_eq_iff {text : String} {scope : Scope} (shown : ¬ Text.AllBlank text)
    (bad : ¬ scope.IsFinite) {r : Except Fault Float} :
    (∃ order, evaluate text (scope.inOrder order) = r)
      ↔ ∃ b ∈ scope.bindings, b.2.isFinite = false ∧ r = .error (.nonFiniteBinding b.1 b.2) := by
  constructor
  · rintro ⟨order, rfl⟩
    cases hfirst : (scope.inOrder order).firstNonFinite? with
    | none => exact absurd (Scope.firstNonFinite?_eq_none_iff.mp hfirst) bad
    | some b =>
        obtain ⟨hb, hv⟩ := Scope.of_firstNonFinite? hfirst
        exact ⟨b, hb, hv, evaluate_of_refused (admitText_of_nonFinite shown hfirst)⟩
  · rintro ⟨b, hb, hv, rfl⟩
    obtain ⟨order, hfirst⟩ := Scope.exists_firstNonFinite?_eq hb hv
    exact ⟨order, evaluate_of_refused (admitText_of_nonFinite shown hfirst)⟩

/-! ## The simple evaluator -/

/-- The outcome that the result of an evaluation counts as. -/
def Simple.Outcome.ofResult : Except Fault Float → Outcome
  | .ok v => .value v
  | .error (.nonFiniteResult _) => .nonFinite
  | .error _ => .malformed

theorem Simple.isEmpty_plainPart (s : String) :
    (plainPart s).isEmpty = !s.toList.any isPlain := by
  rw [Bool.eq_iff_iff, String.isEmpty_iff, plainPart, String.ofList_eq_empty_iff,
    List.filter_eq_nil_iff]
  simp

/-- Something has been left out of a text if not all of it is plain. What is left is. -/
theorem Simple.plainPart_test (s : String) :
    (plainPart s != s || !(plainPart s).toList.all isPlain) = !s.toList.all isPlain := by
  have hplain : (plainPart s).toList.all isPlain = true := by
    rw [plainPart, String.toList_ofList, List.all_filter]
    simp
  rw [hplain, Bool.not_true, Bool.or_false, Bool.eq_iff_iff, bne_iff_ne, ne_eq, ← String.toList_inj,
    plainPart, String.toList_ofList, List.filter_eq_self, Bool.not_eq_true', Bool.eq_false_iff,
    ne_eq, List.all_eq_true]

/-- Once nothing has been left out, the text is the one that is looked at further. -/
theorem Simple.outcome_eq (text : String) :
    outcome text =
      if !(Text.compact text).toList.any isPlain then .blank
      else if !(Text.compact text).toList.all isPlain then .foreign
      else if !balancedFrom 0 (Text.compact text).toList then .unbalanced
      else .ofResult (Parsed.ofText (Text.compact text) >>= fun p => p.tree.checkedValue) := by
  unfold outcome
  dsimp only
  rw [isEmpty_plainPart, plainPart_test]
  generalize Text.compact text = s
  by_cases hall : s.toList.all isPlain = true
  · have hkept : plainPart s = s := by
      rw [← String.toList_inj, plainPart, String.toList_ofList]
      exact List.filter_eq_self.mpr (List.all_eq_true.mp hall)
    rw [hkept]
    rfl
  · rw [Bool.not_eq_true] at hall
    rw [hall]
    rfl

theorem Simple.Outcome.eq_ok_of_ofResult {r : Except Fault Float} {v : Float}
    (h : ofResult r = .value v) : r = .ok v := by
  unfold ofResult at h
  split at h <;> cases h
  rfl

/-- The simple evaluator takes no value that is not finite. -/
theorem Simple.isFinite_of_outcome {text : String} {v : Float} (h : outcome text = .value v) :
    v.isFinite = true := by
  rw [outcome_eq] at h
  split at h
  · cases h
  split at h
  · cases h
  split at h
  · cases h
  · obtain ⟨p, -, hv⟩ := exists_of_bind_eq_ok (Outcome.eq_ok_of_ofResult h)
    exact (Expr.checkedValue_eq_ok_iff.mp hv).2

theorem Simple.isFinite_evaluate (text : String) : (evaluate text).isFinite = true := by
  unfold evaluate
  cases h : outcome text with
  | value v => exact isFinite_of_outcome h
  | _ =>
      change (Float.ofBits 0).isFinite = true
      decide +kernel

/-- **The first cause decides, and nothing else does.** An evaluation has the outcome of the one
verdict on its text and scope. What the reader lists is always read back, and what is read back has
a value once no name is left in it; and the simple evaluator always has a finite value. A scope that
is not finite is refused in any order, for any of its bindings that are not finite. -/
theorem evaluate_verdict :
    (∀ text scope r, evaluate text scope = r ↔ Verdict text scope r)
    ∧ (Fault.blankText.kind = .invalidExpression
      ∧ (∀ x v, (Fault.nonFiniteBinding x v).kind = .invalidExpression)
      ∧ (∀ x, (Fault.unboundName x).kind = .unsafeExpression)
      ∧ ∀ v, (Fault.nonFiniteResult v).kind = .invalidResult)
    ∧ (∀ ts l, Listing.ofTokens ts = .ok l → ∃ e, Expr.ofListing l = .ok e
      ∧ ∀ scope, (e.settle scope).checkBound = .ok () → ∃ v, (e.settle scope).value = .ok v)
    ∧ (∀ text, (Simple.evaluate text).isFinite = true)
    ∧ ∀ text (scope : Scope), ¬ Text.AllBlank text → ¬ scope.IsFinite →
      ∀ r, (∃ order, evaluate text (scope.inOrder order) = r)
        ↔ ∃ b ∈ scope.bindings, b.2.isFinite = false ∧ r = .error (.nonFiniteBinding b.1 b.2) := by
  refine ⟨fun text scope r => ⟨?_, Verdict.evaluate_eq⟩,
    ⟨rfl, fun _ _ => rfl, fun _ => rfl, fun _ => rfl⟩, ?_, Simple.isFinite_evaluate,
    fun text scope shown bad r => exists_order_evaluate_eq_iff shown bad⟩
  · rintro rfl
    exact Verdict.of_evaluate text scope
  · intro ts l hl
    obtain ⟨q, -, -, he⟩ := exists_tree_of_ofTokens hl
    refine ⟨q.tree, he, fun scope hbound => ?_⟩
    rw [Expr.value_eq_eval]
    exact q.wellApplied.exists_eval_settle (Expr.checkBound_eq_ok_iff.mp hbound)

/-- A listing with a name in it is read back, and has a value once the name is bound. And of two
names that are bound to no finite number either is reported, in some order. -/
theorem evaluate_verdict_of_product :
    let scope := Scope.ofList [("x", .ofBits 0x7ff8000000000000), ("y", .ofBits 0x7ff0000000000000)]
    (Listing.ofTokens [.num 2, .op .mul, .ident "x"] = .ok [.num 2, .var "x", .op (.bin .mul)]
    ∧ ∃ e, Expr.ofListing [.num 2, .var "x", .op (.bin .mul)] = .ok e
      ∧ (e.settle (.ofList [("x", 3)])).checkBound = .ok ()
      ∧ ∃ v, (e.settle (.ofList [("x", 3)])).value = .ok v)
    ∧ (¬ Text.AllBlank "2*x" ∧ ¬ scope.IsFinite
      ∧ (∃ order, evaluate "2*x" (scope.inOrder order)
        = .error (.nonFiniteBinding "x" (.ofBits 0x7ff8000000000000)))
      ∧ ∃ order, evaluate "2*x" (scope.inOrder order)
        = .error (.nonFiniteBinding "y" (.ofBits 0x7ff0000000000000))) := by
  intro scope
  have hl : Listing.ofTokens [.num 2, .op .mul, .ident "x"]
      = .ok [.num 2, .var "x", .op (.bin .mul)] := by
    rfl
  obtain ⟨e, he, hvalue⟩ := evaluate_verdict.2.2.1 _ _ hl
  obtain rfl : Expr.bin .mul (.num 2) (.var "x") = e := Except.ok.inj he
  have hbound : ((Expr.bin .mul (.num 2) (.var "x")).settle (.ofList [("x", 3)])).checkBound
      = .ok () :=
    Expr.checkBound_eq_ok_iff.mpr (by decide +kernel)
  have hshown : ¬ Text.AllBlank "2*x" := by
    rw [← Text.isEmpty_compact_iff]
    decide +kernel
  have hx : ("x", Float.ofBits 0x7ff8000000000000) ∈ scope.bindings := .head _
  have hy : ("y", Float.ofBits 0x7ff0000000000000) ∈ scope.bindings := .tail _ (.head _)
  have hxv : (Float.ofBits 0x7ff8000000000000).isFinite = false := by decide +kernel
  have hyv : (Float.ofBits 0x7ff0000000000000).isFinite = false := by decide +kernel
  have hbad : ¬ scope.IsFinite := fun hfinite => by
    have h := hfinite _ hx
    rw [hxv] at h
    cases h
  have hreported := fun r => (evaluate_verdict.2.2.2.2 "2*x" scope hshown hbad r).mpr
  exact ⟨⟨hl, _, he, hbound, hvalue _ hbound⟩, hshown, hbad, hreported _ ⟨_, hx, hxv, rfl⟩,
    hreported _ ⟨_, hy, hyv, rfl⟩⟩

/-- A scope that is not finite is refused although the text does not use the name. -/
example : evaluate "2+x" (.ofList [("x", 1), ("y", .ofBits 0x7ff0000000000000)])
    = .error (.nonFiniteBinding "y" (.ofBits 0x7ff0000000000000)) := by
  rfl

end Reckon
