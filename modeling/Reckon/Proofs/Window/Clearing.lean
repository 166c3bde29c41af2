import Reckon.Proofs.Verdict
import Reckon.Proofs.Window.Coherence
import Reckon.Proofs.Window.Memo

/-!
# What the clearing buttons clear

`C` is for the entry, `CLR` for the results and `AC` for everything; Escape is for the entry, as `C`
is. Each of them keeps to its part as long as the entry does not have the keyboard. A click on a
button takes the keyboard away from an entry that has it, and then the entry is evaluated after the
button has acted (`press_focused`). So the results that `CLR` has cleared are there again at once,
and after `AC` and `C` the window complains of the empty entry, unless it is the very input of the
last evaluation. `clearing_iff` says when each of them keeps to its part, and what comes of it when
it does not.
-/

namespace Reckon.Window

/-! ## What is promised -/

/-- The entry has become empty, and nothing else has changed but the wish for the keyboard. -/
def EntryCleared (w w' : Window) : Prop := w'.granted = { w with entry := "" }.granted

/-- The results have become empty, and nothing else has changed but the record of the last
evaluation and the wish for the keyboard. -/
def ResultsCleared (w w' : Window) : Prop :=
  w'.granted = { w with
    result := ""
    complaint := .blank
    working := .blank
    evaluated := w'.evaluated }.granted

instance (w w' : Window) : Decidable (EntryCleared w w') := inferInstanceAs (Decidable (_ = _))

instance (w w' : Window) : Decidable (ResultsCleared w w') := inferInstanceAs (Decidable (_ = _))

theorem EntryCleared.evaluated {w w' : Window} (h : EntryCleared w w') :
    w'.evaluated = w.evaluated := by
  have hgranted := congrArg Window.evaluated h
  exact hgranted

theorem ResultsCleared.outputs {w w' : Window} (h : ResultsCleared w w') :
    w'.outputs = ⟨"", .blank, .blank⟩ := by
  have hgranted := congrArg Window.outputs h
  exact hgranted

/-! ## The evaluation behind a click -/

/-- The buttons that act before an entry that loses the keyboard is evaluated, and not again
after it. -/
def clearing : List Button := [.clearEntry, .clearResults, .reset]

/-- **A click on a focused entry evaluates.** It does what the click does otherwise, and then
evaluates what it has left. -/
theorem press_focused (w : Window) {b : Button} (hb : b ∈ clearing) (order : Scope.Order) :
    w.after (.press b true) order = (w.after (.press b false) order).refresh order := by
  simp only [clearing, List.mem_cons, List.not_mem_nil, or_false] at hb
  rcases hb with rfl | rfl | rfl <;> rfl

/-- After an evaluation the input is on record, whether it was evaluated just now or before. -/
theorem evaluated_refresh (w : Window) (order : Scope.Order) :
    (w.refresh order).evaluated = some w.input := by
  cases hstale : w.isStale with
  | true =>
      rw [refresh, hstale, if_pos rfl, evaluate_eq]
      cases assess w.remember.input order <;> rfl
  | false =>
      rw [refresh_of_not_stale hstale]
      exact isStale_eq_false_iff.mp hstale

/-- An empty entry is refused before the scope is looked at. -/
theorem assess_empty {rows : List Row} {scope : Scope} (h : Row.scopeOf rows = .ok scope)
    (order : Scope.Order) : assess ("", rows) order = .error (.ofFault .blankText) := by
  have hblank : analyse "" (scope.inOrder order) = .error .blankText :=
    analyse_of_refused (admitText_of_allBlank _ (by rintro c ⟨⟩))
  rw [assess_of_scopeOf h, hblank]
  rfl

/-- An empty entry has no value, whatever the rows. -/
theorem exists_assess_empty (rows : List Row) (order : Scope.Order) :
    ∃ c, assess ("", rows) order = .error c := by
  cases h : Row.scopeOf rows with
  | error e => exact ⟨_, assess_of_rowFault h order⟩
  | ok scope => exact ⟨_, assess_empty h order⟩

/-! ## Each in its turn -/

theorem entryCleared_escape (w : Window) (order : Scope.Order) :
    EntryCleared w (w.after .escape order) := rfl

/-- `C` on a focused entry leaves the results only if they are those of the empty entry already. -/
theorem entryCleared_press_iff (w : Window) (focused : Bool) (order : Scope.Order) :
    EntryCleared w (w.after (.press .clearEntry focused) order)
      ↔ focused = false ∨ w.evaluated = some ("", w.rows) := by
  cases focused with
  | false => exact iff_of_true rfl (.inl rfl)
  | true =>
      rw [press_focused w (.head _)]
      constructor
      · intro h
        exact .inr (h.evaluated.symm.trans (evaluated_refresh _ order))
      · rintro (h | h)
        · cases h
        · rw [refresh_of_not_stale (isStale_eq_false_iff.mpr h)]
          rfl

/-- The result is never among what `C` changes: an empty entry has none to put in its place. -/
theorem result_press_clearEntry (w : Window) (focused : Bool) (order : Scope.Order) :
    (w.after (.press .clearEntry focused) order).result = w.result := by
  cases focused with
  | false => rfl
  | true =>
      rw [press_focused w (.head _)]
      cases hstale : (w.after (.press .clearEntry false) order).isStale with
      | false => rw [refresh_of_not_stale hstale]; rfl
      | true =>
          obtain ⟨c, hc⟩ := exists_assess_empty w.rows order
          have houtputs := refresh_of_stale hstale order
          change _ = Outputs.ofAssessed w.result (assess ("", w.rows) order) at houtputs
          rw [hc] at houtputs
          exact congrArg Outputs.result houtputs

/-- `CLR` forgets the input of the last evaluation, so a focused entry is evaluated anew. -/
theorem outputs_press_clearResults (w : Window) (order : Scope.Order) :
    (w.after (.press .clearResults true) order).outputs
      = .ofAssessed "" (assess w.input order) := by
  rw [press_focused w (.tail _ (.head _))]
  exact refresh_of_stale rfl order

/-- An evaluation always leaves something to be seen. -/
theorem Outputs.ofAssessed_ne_blank (input : String × List Row) (order : Scope.Order) :
    ofAssessed "" (assess input order) ≠ ⟨"", .blank, .blank⟩ := by
  intro h
  cases ha : assess input order with
  | ok a =>
      rw [ha] at h
      exact Number.text_ne_empty a.value (congrArg Outputs.result h)
  | error c =>
      rw [ha] at h
      obtain rfl : c = .blank := congrArg Outputs.complaint h
      exact (isShown_of_assess ha).kind rfl

theorem resultsCleared_press_iff (w : Window) (focused : Bool) (order : Scope.Order) :
    ResultsCleared w (w.after (.press .clearResults focused) order) ↔ focused = false := by
  cases focused with
  | false => exact iff_of_true rfl rfl
  | true =>
      refine iff_of_false (fun h => ?_) (by rintro ⟨⟩)
      have houtputs := h.outputs
      rw [outputs_press_clearResults] at houtputs
      exact Outputs.ofAssessed_ne_blank w.input order houtputs

/-- A fresh window with an empty entry that has been evaluated. -/
theorem press_reset_focused (w : Window) (order : Scope.Order) : w.after (.press .reset true) order
    = { fresh with complaint := .ofFault .blankText, evaluated := some fresh.input } := by
  have hstale : fresh.isStale = true := rfl
  have hrows : Row.scopeOf fresh.rows = .ok .empty := rfl
  have hassess : assess fresh.remember.input order = .error (.ofFault .blankText) :=
    assess_empty hrows order
  rw [press_focused w (.tail _ (.tail _ (.head _)))]
  change fresh.refresh order = _
  rw [refresh, if_pos hstale, evaluate_eq, hassess]
  rfl

theorem press_reset_eq_fresh_iff (w : Window) (focused : Bool) (order : Scope.Order) :
    w.after (.press .reset focused) order = fresh ↔ focused = false := by
  cases focused with
  | false => exact iff_of_true rfl rfl
  | true =>
      rw [press_reset_focused]
      exact iff_of_false (fun h => Option.some_ne_none _ (congrArg Window.evaluated h))
        (by rintro ⟨⟩)

/-- **When the clearing buttons keep to their part.** In every state Escape clears the entry and
nothing else. `C` does so if the entry does not have the keyboard, or if the last evaluation was of
the empty entry and these rows; it never touches the result. `CLR` and `AC` do what they are for
exactly if the entry does not have the keyboard. If it does, what they leave is evaluated. -/
theorem clearing_iff (steps : List Step) (focused : Bool) (order : Scope.Order) :
    let w := run steps
    EntryCleared w (w.after .escape order)
    ∧ (EntryCleared w (w.after (.press .clearEntry focused) order)
        ↔ focused = false ∨ w.evaluated = some ("", w.rows))
    ∧ (w.after (.press .clearEntry focused) order).result = w.result
    ∧ (ResultsCleared w (w.after (.press .clearResults focused) order) ↔ focused = false)
    ∧ (w.after (.press .clearResults true) order).outputs = .ofAssessed "" (assess w.input order)
    ∧ (w.after (.press .reset focused) order = fresh ↔ focused = false)
    ∧ w.after (.press .reset true) order
      = { fresh with complaint := .ofFault .blankText, evaluated := some fresh.input } :=
  ⟨entryCleared_escape _ order, entryCleared_press_iff _ focused order,
    result_press_clearEntry _ focused order, resultsCleared_press_iff _ focused order,
    outputs_press_clearResults _ order, press_reset_eq_fresh_iff _ focused order,
    press_reset_focused _ order⟩

/-- After an evaluation, a click with the keyboard on the entry: `C` takes the working away and
complains, `CLR` evaluates again, and `AC` complains of an entry that nobody has typed. -/
theorem clearing_after_sum :
    let w := run [.editEntry "1+1", .gesture .enter .byName]
    ¬ EntryCleared w (w.after (.press .clearEntry true))
    ∧ ¬ ResultsCleared w (w.after (.press .clearResults true))
    ∧ w.after (.press .reset true) ≠ fresh := by
  decide +kernel

end Reckon.Window
