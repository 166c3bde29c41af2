import Reckon.Proofs.Verdict
import Reckon.Proofs.Window.Run

/-!
# The simple field

The simple field is evaluated whenever its text is changed, and at no other time. Only a reset
writes to it in another way: it puts back the three texts of a fresh window and evaluates nothing.
So the field is a machine of its own inside the window, which typing and resetting drive and
nothing else does (`simple_stepped`), and what it shows belongs to its text in every state
(`simple_run`). One difference is left: as long as nobody has typed in it, the empty field does not
say why its value is zero.
-/

namespace Reckon.Window

/-- The simple field: its text, and the value and the reason that are shown for it. -/
structure SimpleField where
  entry : String
  result : String
  reason : String
deriving DecidableEq

/-- The simple field of a window. -/
def simple (w : Window) : SimpleField := ⟨w.simpleEntry, w.simpleResult, w.simpleReason⟩

namespace SimpleField

/-- The field that nobody has typed in. -/
def untouched : SimpleField := ⟨"", "0", ""⟩

/-- The field with a text that has been evaluated. -/
def ofText (text : String) : SimpleField :=
  ⟨text, Number.text (Simple.evaluate text), Window.reason (Simple.outcome text)⟩

/-- What an operation does to the field. -/
def after (f : SimpleField) : Operation → SimpleField
  | .reset => untouched
  | .editSimple text => ofText text
  | _ => f

/-- What a step does to the field: typing in it and a reset matter, and nothing else. -/
def stepped (f : SimpleField) : Step → SimpleField
  | .gesture (.typeSimple text) _ => ofText (oneLine text)
  | .editSimple text => ofText text
  | .gesture (.press .reset _) _ => untouched
  | _ => f

theorem untouched_result : untouched.result = Number.text (Simple.evaluate untouched.entry) := by
  decide +kernel

end SimpleField

/-- An evaluation of the entry shows what it comes to in the other texts. -/
theorem simple_refresh (w : Window) (order : Scope.Order) :
    (w.refresh order).simple = w.simple := by
  unfold refresh
  split
  · rw [evaluate_eq]
    cases assess w.remember.input order <;> rfl
  · rfl

theorem simple_editSimple (w : Window) (text : String) :
    (w.editSimple text).simple = .ofText text := by
  unfold editSimple refreshSimple showSimple simple SimpleField.ofText Simple.evaluate
  dsimp only

theorem simple_apply (w : Window) (o : Operation) : (o.apply w).simple = w.simple.after o := by
  cases o with
  | refresh order => exact w.simple_refresh order
  | editSimple text => exact w.simple_editSimple text
  | requestRow =>
      rw [Operation.apply]
      split
      · rw [addRow]
        split <;> rfl
      · rfl
  | _ => rfl

/-- **Only typing and resetting reach the simple field.** -/
theorem simple_stepped (w : Window) (s : Step) : (w.stepped s).simple = w.simple.stepped s := by
  have hfold : (w.stepped s).simple = s.operations.foldl SimpleField.after w.simple := by
    rw [stepped_eq]
    exact (List.foldl_hom simple fun w o => (simple_apply w o).symm).symm
  rw [hfold]
  match s with
  | .gesture (.press b focused) _ => cases b <;> cases focused <;> rfl
  | .gesture (.removeRow i focused) _ => cases focused <;> rfl
  | .gesture .enter _ | .gesture .escape _ | .gesture (.typeSimple text) _ | .gesture .look _
  | .editEntry text | .editRow i row | .editSimple text => rfl

/-! ## What is shown belongs to the text -/

/-- Whether the field has been typed in after a step, `typed` saying whether it had been before. -/
def typedAfter (typed : Bool) : Step → Bool
  | .gesture (.typeSimple _) _ | .editSimple _ => true
  | .gesture (.press .reset _) _ => false
  | _ => typed

/-- Whether the simple field has been typed in since the start or the last reset. -/
def typedIn (steps : List Step) : Bool := steps.foldl typedAfter false

/-- The field shows what belongs to its text, or has not been typed in. -/
def SimpleField.InStep (f : SimpleField) (typed : Bool) : Prop :=
  f = if typed then ofText f.entry else untouched

theorem SimpleField.inStep_true_iff {f : SimpleField} : f.InStep true
    ↔ f.result = Number.text (Simple.evaluate f.entry)
      ∧ f.reason = Window.reason (Simple.outcome f.entry) := by
  obtain ⟨entry, result, reason⟩ := f
  rw [InStep, if_pos rfl, ofText, mk.injEq]
  exact and_iff_right rfl

theorem SimpleField.InStep.result {f : SimpleField} {typed : Bool} (h : f.InStep typed) :
    f.result = Number.text (Simple.evaluate f.entry) := by
  cases typed with
  | true => exact (inStep_true_iff.1 h).1
  | false =>
      obtain rfl : f = untouched := h
      exact untouched_result

theorem SimpleField.InStep.reason {f : SimpleField} {typed : Bool} (h : f.InStep typed) :
    if typed then f.reason = Window.reason (Simple.outcome f.entry)
    else f.entry = "" ∧ f.reason = "" := by
  cases typed with
  | true => exact (inStep_true_iff.1 h).2
  | false =>
      obtain rfl : f = untouched := h
      exact ⟨rfl, rfl⟩

theorem SimpleField.InStep.stepped {f : SimpleField} {typed : Bool} (h : f.InStep typed)
    (s : Step) : (f.stepped s).InStep (typedAfter typed s) := by
  match s with
  | .gesture (.typeSimple text) _ | .editSimple text | .gesture (.press .reset focused) _ => rfl
  | .gesture (.press .clearEntry focused) _ | .gesture (.press .clearResults focused) _
  | .gesture (.press .evaluate focused) _ | .gesture (.press (.function f) focused) _
  | .gesture (.press (.constant x) focused) _ | .gesture (.press .addRow focused) _
  | .gesture (.removeRow i focused) _ | .gesture .enter _ | .gesture .escape _ | .gesture .look _
  | .editEntry text | .editRow i row => exact h

theorem inStep_run (steps : List Step) : (run steps).simple.InStep (typedIn steps) := by
  -- the window and what is known of its past go along together
  have hfold : ∀ (w : Window) (typed : Bool), w.simple.InStep typed →
      (steps.foldl stepped w).simple.InStep (steps.foldl typedAfter typed) := by
    induction steps with
    | nil => exact fun _ _ h => h
    | cons s steps ih =>
        intro w typed h
        refine ih _ _ ?_
        rw [simple_stepped]
        exact h.stepped s
  exact hfold fresh false rfl

/-- **The simple field shows what belongs to its text.** In every state its result is the text of
the value of its text, which is finite, and its reason is that of its text; but as long as nobody
has typed in it since the start or the last reset it is empty and gives no reason. No step but
typing in it and a reset changes it. -/
theorem simple_run (steps : List Step) :
    let w := run steps
    w.simpleResult = Number.text (Simple.evaluate w.simpleEntry)
    ∧ (Simple.evaluate w.simpleEntry).isFinite = true
    ∧ (if typedIn steps then w.simpleReason = reason (Simple.outcome w.simpleEntry)
      else w.simpleEntry = "" ∧ w.simpleReason = "")
    ∧ ∀ s, (w.stepped s).simple = w.simple.stepped s := by
  have h := inStep_run steps
  generalize run steps = w at h ⊢
  exact ⟨h.result, Simple.isFinite_evaluate w.simpleEntry, h.reason, simple_stepped w⟩

/-- A text that is typed and taken away again leaves its reason behind. -/
example : (run [.editSimple "2+", .editSimple ""]).simple = ⟨"", "0", "vide → 0"⟩ := by
  decide +kernel

end Reckon.Window
