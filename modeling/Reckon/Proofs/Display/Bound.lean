import Reckon.Proofs.Display.RoundTrip

/-!
# Evaluating what is displayed of an analysis

An analysis displays the tree it has computed, with every name bound. This module says when that
text, evaluated without a scope, has the value of the analysis again.

The literals of a bound tree come from the text and from the scope. A text makes no number with a
sign, but it can make one too large for double precision, which becomes infinity and is displayed as
a word; and a scope may give a zero with a sign, which the printer takes for an atom. These are the
only two causes of trouble:

* where an infinite literal is displayed (`Overflows`), the word is a name without a value;
* where a sign is displayed right before the sign of a zero (`SignsMeet`), nothing can be read;
* where a zero with a sign is the base of a power (`SpreadsSign`), the sign is read over the whole
  power, and what comes out is the value of another tree.
-/

namespace Reckon

/-! ## The literals of a bound tree -/

theorem isFinite_of_constant? {x : String} {v : Float} (h : constant? x = some v) :
    v.isFinite = true := by
  have hall : ∀ b ∈ constants, b.2.isFinite = true := by decide +kernel
  exact hall (x, v) (Scope.mem_of_lookup_eq_some (l := constants) h)

theorem Scope.isFinite_of_find? {scope : Scope} (hs : scope.checkFinite = .ok ()) {x : String}
    {v : Float} (h : scope.find? x = some v) : v.isFinite = true := by
  exact checkFinite_eq_ok_iff.mp hs (x, v) (find?_eq_some_iff.mp h)

theorem Scope.isFinite_of_value? {scope : Scope} (hs : scope.checkFinite = .ok ()) {x : String}
    {v : Float} (h : scope.value? x = some v) : v.isFinite = true := by
  unfold value? at h
  split at h
  · cases h
    exact scope.isFinite_of_find? hs ‹_›
  · exact isFinite_of_constant? h

namespace Expr

theorem Readable.settle {literal : Float → Prop} {scope : Scope}
    (hs : ∀ x v, scope.value? x = some v → literal v) {e : Expr} (h : e.Readable literal) :
    (e.settle scope).Readable literal := by
  induction h with
  | num hv =>
      rw [settle_num]
      exact .num hv
  | @var x spelled free =>
      rw [settle_var]
      cases hx : scope.value? x with
      | none => exact .var spelled free
      | some v => exact .num (hs x v hx)
  | neg he ih =>
      rw [settle_neg]
      exact .neg ih
  | bin ha hb iha ihb =>
      rw [settle_bin]
      exact .bin iha ihb
  | call accepted hargs ih =>
      rw [settle_call]
      refine .call (by rw [List.length_map]; exact accepted) fun b hb => ?_
      obtain ⟨a, ha, rfl⟩ := List.mem_map.mp hb
      exact ih a ha

end Expr

/-- The literals of a bound tree are finite, apart from those that a text made infinite. -/
theorem analyse_bound_readable {text : String} {scope : Scope} {a : Analysis}
    (h : analyse text scope = .ok a) : a.bound.Readable Token.IsLiteral := by
  have hst := analyse_stages h
  have hparsed : a.parsed.Readable Token.IsLiteral := by
    refine Parsed.readable hst.read fun v _ hnumeral => ?_
    obtain ⟨d, rfl⟩ := hnumeral
    exact Number.isFinite_ofDecimal d
  rw [hst.bound]
  exact hparsed.settle fun x v hx =>
    .inl (scope.isFinite_of_value? (admitText_checkFinite hst.admitted) hx)

namespace Expr

/-! ## What is read back of a bound tree -/

/-- Some literal of a tree is not finite. -/
def Overflows : Expr → Prop := Within fun e => ∃ v, e = num v ∧ v.isFinite = false

/-- Some power in a tree has a zero with a sign for its base. -/
def SpreadsSign : Expr → Prop := Within fun e => ∃ b, e = bin .pow (num (-0)) b

theorem eval_of_mem {args : List Expr} {vs : List Float} (h : evalAll args = .ok vs) {a : Expr}
    (ha : a ∈ args) : ∃ v, a.eval = .ok v := by
  induction args generalizing vs with
  | nil => cases ha
  | cons b args ih =>
      rw [evalAll] at h
      obtain ⟨v, hv, h⟩ := exists_of_bind_eq_ok h
      obtain ⟨ws, hws, -⟩ := exists_of_bind_eq_ok h
      rcases List.mem_cons.mp ha with rfl | ha
      · exact ⟨v, hv⟩
      · exact ih hws ha

/-- The word for infinity is no constant. -/
theorem settle_reread_num {v : Float} (h : Token.IsLiteral v) :
    (num v).reread.settle ∅ = (num v).reread := by
  rw [reread]
  rcases h with hfin | rfl
  · rw [if_pos hfin]
    split
    · rw [settle_neg, settle_num]
    · rw [settle_num]
  · have hvalue : Scope.value? ∅ "inf" = none := by decide
    rw [Number.isFinite_infinite, Number.text_infinite]
    change (var "inf").settle ∅ = var "inf"
    rw [settle_var, hvalue]
    rfl

/-- A tree that has a value holds no name, and what it is read back as holds at most the word for
infinity. -/
theorem settle_reread {e : Expr} (h : e.Readable Token.IsLiteral) :
    ∀ {v}, e.eval = .ok v → e.reread.settle ∅ = e.reread := by
  induction h with
  | num hv =>
      intro _ _
      exact settle_reread_num hv
  | var spelled free =>
      -- a name has no value
      intro v hv
      cases hv
  | neg he ih =>
      intro v hv
      rw [eval] at hv
      obtain ⟨w, hw, -⟩ := exists_of_bind_eq_ok hv
      rw [reread, settle_neg, ih hw]
  | bin ha hb iha ihb =>
      intro v hv
      rw [eval] at hv
      obtain ⟨x, hx, hv⟩ := exists_of_bind_eq_ok hv
      obtain ⟨y, hy, -⟩ := exists_of_bind_eq_ok hv
      rw [reread]
      split
      · rw [settle_neg, settle_bin, settle_num, ihb hy]
      · rw [settle_bin, iha hx, ihb hy]
  | call accepted hargs ih =>
      intro v hv
      rw [eval] at hv
      obtain ⟨vs, hvs, -⟩ := exists_of_bind_eq_ok hv
      rw [reread, rereadAll_eq_map, settle_call, List.map_map]
      refine congrArg _ (List.map_congr_left fun a ha => ?_)
      obtain ⟨w, hw⟩ := eval_of_mem hvs ha
      exact ih a ha hw

/-- A sign computed is the sign written. -/
theorem eval_reread_num {v : Float} (h : v.isFinite = true) : (num v).reread.eval = .ok v := by
  rw [reread, if_pos h]
  by_cases hs : Number.isSigned v = true
  · rw [if_pos hs, eval, eval]
    exact congrArg Except.ok (Number.neg_abs_of_isSigned h hs)
  · rw [if_neg hs, Number.abs_of_not_isSigned h ((Bool.not_eq_true _).mp hs), eval]

/-- What is read back computes the same as the tree, if no sign of a literal spreads. -/
theorem eval_reread {e : Expr} (h : e.Readable fun v => v.isFinite = true)
    (hspread : ¬ e.SpreadsSign) : e.reread.eval = e.eval := by
  induction h with
  | num hfin => rw [eval_reread_num hfin, eval]
  | var spelled free => rw [reread]
  | neg he ih => rw [reread, eval, eval, ih fun hs => hspread (.neg hs)]
  | @bin op a b ha hb iha ihb =>
      have hh : (bin op a b).hidesSign = false := by
        rw [← Bool.not_eq_true]
        intro hh
        obtain ⟨rfl, rfl⟩ := eq_of_hidesSign_bin hh
        exact hspread (.here ⟨b, rfl⟩)
      rw [reread, hh, if_neg Bool.false_ne_true, eval, eval, iha fun hs => hspread (.left hs),
        ihb fun hs => hspread (.right hs)]
  | call accepted hargs ih =>
      have hvalues := evalAll_congr (g := id) fun a ha =>
        ih a ha fun hs => hspread (.argument ha hs)
      rw [List.map_id] at hvalues
      rw [reread, eval, eval, rereadAll_eq_map, hvalues]

theorem readable_finite {e : Expr} (h : e.Readable Token.IsLiteral) (hover : ¬ e.Overflows) :
    e.Readable fun v => v.isFinite = true := by
  induction h with
  | @num v hv =>
      refine .num ?_
      rw [← Bool.not_eq_false]
      exact fun hinf => hover (.here ⟨v, rfl, hinf⟩)
  | var spelled free => exact .var spelled free
  | neg he ih => exact .neg (ih fun ho => hover (.neg ho))
  | bin ha hb iha ihb =>
      exact .bin (iha fun ho => hover (.left ho)) (ihb fun ho => hover (.right ho))
  | call accepted hargs ih =>
      exact .call accepted fun a ha => ih a ha fun ho => hover (.argument ha ho)

theorem eval_of_reread_bin {op : BinOp} {a b : Expr} {w : Float}
    (h : (bin op a b).reread.eval = .ok w) :
    (∃ x, a.reread.eval = .ok x) ∧ ∃ y, b.reread.eval = .ok y := by
  rw [reread] at h
  split at h
  · rename_i hh
    obtain ⟨rfl, rfl⟩ := eq_of_hidesSign_bin hh
    rw [eval] at h
    obtain ⟨u, h, -⟩ := exists_of_bind_eq_ok h
    rw [eval] at h
    obtain ⟨x, -, h⟩ := exists_of_bind_eq_ok h
    obtain ⟨y, hy, -⟩ := exists_of_bind_eq_ok h
    -- the base is gone from what is read back, but its value is known
    exact ⟨⟨-0, eval_reread_num (by decide +kernel)⟩, y, hy⟩
  · rw [eval] at h
    obtain ⟨x, hx, h⟩ := exists_of_bind_eq_ok h
    obtain ⟨y, hy, -⟩ := exists_of_bind_eq_ok h
    exact ⟨⟨x, hx⟩, y, hy⟩

/-- The word for infinity has no value. -/
theorem eval_reread_of_overflows {e : Expr} (hover : e.Overflows) :
    ∀ v, e.reread.eval ≠ .ok v := by
  induction hover with
  | here h =>
      obtain ⟨v, rfl, hv⟩ := h
      intro w hw
      rw [reread, hv] at hw
      cases hw
  | neg _ ih =>
      intro w hw
      rw [reread, eval] at hw
      obtain ⟨x, hx, -⟩ := exists_of_bind_eq_ok hw
      exact ih x hx
  | left _ ih =>
      intro w hw
      obtain ⟨⟨x, hx⟩, -⟩ := eval_of_reread_bin hw
      exact ih x hx
  | right _ ih =>
      intro w hw
      obtain ⟨-, y, hy⟩ := eval_of_reread_bin hw
      exact ih y hy
  | argument ha _ ih =>
      intro w hw
      rw [reread, rereadAll_eq_map, eval] at hw
      obtain ⟨vs, hvs, -⟩ := exists_of_bind_eq_ok hw
      obtain ⟨x, hx⟩ := eval_of_mem hvs (List.mem_map_of_mem ha)
      exact ih x hx

end Expr

/-- What the displayed text of a readable tree evaluates to, if the tree has a value itself. -/
theorem evaluate_render_eq_ok_iff {e : Expr} (h : e.Readable Token.IsLiteral) {v : Float}
    (hv : e.eval = .ok v) (w : Float) :
    evaluate e.render ∅ = .ok w
      ↔ ¬ e.SignsMeet ∧ e.reread.eval = .ok w ∧ w.isFinite = true := by
  rw [evaluate_eq_ok_iff]
  constructor
  · rintro ⟨-, p, hp, hw, hfin⟩
    have hmeet : ¬ e.SignsMeet := fun hmeet => Parsed.not_ofText_render h hmeet p hp
    rw [Parsed.ofText_render h hmeet] at hp
    cases hp
    rw [Expr.settle_reread h hv] at hw
    exact ⟨hmeet, hw, hfin⟩
  · rintro ⟨hmeet, hw, hfin⟩
    refine ⟨rfl, _, Parsed.ofText_render h hmeet, ?_, hfin⟩
    rw [Expr.settle_reread h hv]
    exact hw

/-- **When a displayed tree has its value again.** The text of the bound tree of an analysis,
evaluated without a scope, has the value of the analysis if and only if no signs meet in it, no
literal is infinite, and the tree that it is read as has that value; and the last needs to be asked
only if the sign of a zero spreads over a power. -/
theorem evaluate_bound_render (text : String) (scope : Scope) (a : Analysis)
    (h : analyse text scope = .ok a) :
    (evaluate a.bound.render ∅ = .ok a.value
      ↔ ¬ a.bound.SignsMeet ∧ ¬ a.bound.Overflows ∧ a.bound.reread.eval = .ok a.value)
    ∧ (¬ a.bound.Overflows → ¬ a.bound.SpreadsSign → a.bound.reread.eval = .ok a.value) := by
  have hread := analyse_bound_readable h
  obtain ⟨hvalue, hfin⟩ := Expr.checkedValue_eq_ok_iff.mp (analyse_stages h).value
  constructor
  · rw [evaluate_render_eq_ok_iff hread hvalue]
    constructor
    · rintro ⟨hmeet, hreread, -⟩
      exact ⟨hmeet, fun hover => Expr.eval_reread_of_overflows hover _ hreread, hreread⟩
    · rintro ⟨hmeet, -, hreread⟩
      exact ⟨hmeet, hreread, hfin⟩
  · intro hover hspread
    rw [Expr.eval_reread (Expr.readable_finite hread hover) hspread, hvalue]

/-- A sign right after an operator does no harm. -/
theorem evaluate_bound_render_negative :
    ∃ a, analyse "2-x*3" (.ofList [("x", -4)]) = .ok a ∧ a.bound.render = "2 - -4 * 3"
      ∧ evaluate a.bound.render ∅ = .ok a.value
      ∧ ¬ a.bound.SignsMeet ∧ ¬ a.bound.Overflows ∧ a.bound.reread.eval = .ok a.value := by
  obtain ⟨a, ha, hdisplay⟩ := exists_ok_of_any (x := analyse "2-x*3" (.ofList [("x", -4)]))
    (p := fun a => decide (a.bound.render = "2 - -4 * 3" ∧ a.value = 14)) (by decide +kernel)
  obtain ⟨v, hv, hfourteen⟩ := exists_ok_of_any (x := evaluate "2 - -4 * 3" ∅)
    (p := fun v => decide (v = 14)) (by decide +kernel)
  obtain ⟨hrender, hvalue⟩ := of_decide_eq_true hdisplay
  obtain rfl := of_decide_eq_true hfourteen
  rw [← hrender, ← hvalue] at hv
  exact ⟨a, ha, hrender, hv, (evaluate_bound_render _ _ a ha).1.mp hv⟩

/-- A zero with a sign, bound to a name that stands under a sign, is displayed as two signs. -/
theorem evaluate_bound_render_refused :
    ∃ a, analyse "-x" (.ofList [("x", -0)]) = .ok a ∧ a.bound.render = "--0" ∧ a.value = 0
      ∧ evaluate a.bound.render ∅ = .error .repeatedSign := by
  obtain ⟨a, ha, hdisplay⟩ := exists_ok_of_any (x := analyse "-x" (.ofList [("x", -0)]))
    (p := fun a => decide (a.bound.render = "--0" ∧ a.value = 0)) (by decide +kernel)
  obtain ⟨hrender, hvalue⟩ := of_decide_eq_true hdisplay
  refine ⟨a, ha, hrender, hvalue, ?_⟩
  have h : (match evaluate "--0" ∅ with
      | .ok _ => false
      | .error f => decide (f = .repeatedSign)) = true := by decide +kernel
  rw [hrender]
  split at h
  · cases h
  · rename_i f hf
    rw [hf, of_decide_eq_true h]

end Reckon
