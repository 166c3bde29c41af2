import Reckon.Proofs.Window.SimpleField
import Reckon.Window.Session

/-!
# A session is a run of the window

In a session the keyboard decides what a move does. A click evaluates the entry if the entry has the
keyboard, and typing goes into whichever field has it. The window knows nothing of this: its steps
say themselves whether the entry has the keyboard and which field is edited. So a move is read as
steps of the window in the light of the keyboard (`stepsOf`), and the window of a session is the
window after these steps, a wish for the keyboard having been granted (`window_moved`). What is
proved of every run therefore holds in every session (`of_forall_run`).
-/

namespace Reckon.Session

open Window (Step)

/-- What a person does in a session. A move that may evaluate comes with the order of the scope. -/
inductive Move
  | click (t : Target) (order : Scope.Order)
  | goTo (f : Field)
  | write (f : Field) (text : String)
  | type (text : String)
  | backspace
  | enter (order : Scope.Order)
  | escape

/-- The session after a move. -/
def moved (s : Session) : Move → Session
  | .click t order => s.click t order
  | .goTo f => s.goTo f
  | .write f text => s.write f text
  | .type text => s.type text
  | .backspace => s.backspace
  | .enter order => s.enter order
  | .escape => s.escape

/-- The session after some moves, from a fresh one. -/
def run (moves : List Move) : Session := moves.foldl moved start

/-! ## Moves as steps -/

/-- A new content of a field, as a step. -/
def editStep (w : Window) (text : String) : Field → Step
  | .entry => .editEntry text
  | .simple => .editSimple text
  | .name i => .editRow i { w.rows[i]?.getD .blank with name := text }
  | .value i => .editRow i { w.rows[i]?.getD .blank with value := text }

/-- The evaluation of an entry that loses the keyboard. -/
def leaveSteps (s : Session) (order : Scope.Order) : List Step :=
  if s.onEntry then [.gesture .enter order] else []

/-- What a move does to the window, before it is drawn again. -/
def stepsOf (s : Session) : Move → List Step
  | .click (.button b) order => [.gesture (.press b s.onEntry) order]
  | .click (.remove i) order => [.gesture (.removeRow i s.onEntry) order]
  | .click .scopeHeader order | .click .workingHeader order | .click .label order
  | .enter order => s.leaveSteps order
  | .goTo _ => []
  | .write f text => [editStep s.window (Window.oneLine text) f]
  | .type text =>
    match s.focus with
    | some f => if text.isEmpty then [] else [editStep s.window (content s.window f ++ text) f]
    | none => []
  | .backspace =>
    match s.focus with
    | some f =>
      [editStep s.window (String.ofList (content s.window f).toList.dropLast) f]
    | none => []
  | .escape => [.gesture .escape .byName]

variable {s : Session}

/-- A row that is not there may be set to anything. -/
theorem set_eq_modify (rows : List Row) (i : Nat) (f : Row → Row) :
    rows.set i (f (rows[i]?.getD .blank)) = rows.modify i f := by
  rw [List.modify_eq_set_getElem?]
  cases h : rows[i]? with
  | some row => rfl
  | none => exact List.set_eq_of_length_le (List.getElem?_eq_none_iff.mp h)

/-- Typing is editing. -/
theorem stepped_editStep (w : Window) (text : String) (f : Field) :
    w.stepped (editStep w text f) = edit w text f := by
  cases f with
  | entry | simple => rfl
  | name i =>
      exact congrArg (fun rows => { w with rows := rows })
        (set_eq_modify w.rows i fun row => { row with name := text })
  | value i =>
      exact congrArg (fun rows => { w with rows := rows })
        (set_eq_modify w.rows i fun row => { row with value := text })

/-! ## Step by step -/

theorem window_grant (s : Session) : s.grant.window = s.window.granted := by
  unfold grant
  split
  · rfl
  · next h =>
      rw [Bool.not_eq_true] at h
      rw [Window.granted, ← h]

/-- A window that wants nothing is drawn as it is. -/
theorem granted_eq_self_iff {w : Window} : w.granted = w ↔ w.wantsFocus = false :=
  ⟨fun h => (congrArg Window.wantsFocus h).symm, fun h => by rw [Window.granted, ← h]⟩

theorem granted_edit {w : Window} (h : w.granted = w) (text : String) (f : Field) :
    (edit w text f).granted = edit w text f := by
  rw [granted_eq_self_iff] at h ⊢
  cases f <;> exact h

theorem granted_refresh {w : Window} (h : w.granted = w) (order : Scope.Order) :
    (w.refresh order).granted = w.refresh order := by
  rw [granted_eq_self_iff] at h ⊢
  rw [Window.refresh]
  split
  · rw [Window.evaluate_eq]
    cases Window.assess w.remember.input order <;> exact h
  · exact h

theorem foldl_leaveSteps (h : s.window.granted = s.window) (order : Scope.Order) :
    (s.leaveSteps order).foldl Window.stepped s.window
      = if s.onEntry then s.window.refresh order else s.window := by
  unfold leaveSteps
  split
  · change s.window.granted.refresh order = _
    rw [h]
  · rfl

/-- **A move is what its steps make of the window**, which is then drawn. -/
theorem window_moved (h : s.window.granted = s.window) (m : Move) :
    (s.moved m).window = ((s.stepsOf m).foldl Window.stepped s.window).granted := by
  cases m with
  | click t order =>
      rw [moved, click.eq_def, window_grant]
      cases t with
      | button b =>
          change _ = (s.window.granted.press b s.onEntry order).granted
          rw [h]
      | remove i =>
          change _ = ((if s.onEntry then s.window.granted.refresh order
            else s.window.granted).removeRow i).granted
          rw [h]
      | scopeHeader | workingHeader | label => rw [stepsOf, foldl_leaveSteps h]
  | goTo f => exact h.symm
  | write f text =>
      change edit s.window (Window.oneLine text) f = (s.window.stepped _).granted
      rw [stepped_editStep, granted_edit h]
  | type text =>
      rw [moved, type, stepsOf]
      cases s.focus with
      | none => exact h.symm
      | some f =>
          dsimp only
          split
          · exact h.symm
          · change _ = (s.window.stepped _).granted
            rw [stepped_editStep, granted_edit h]
  | backspace =>
      rw [moved, backspace, stepsOf]
      cases s.focus with
      | none => exact h.symm
      | some f =>
          change _ = (s.window.stepped _).granted
          rw [stepped_editStep, granted_edit h]
  | enter order =>
      rw [stepsOf, foldl_leaveSteps h]
      change (if _ then _ else _) = _
      split
      · rw [granted_refresh h]
      · rw [h]
  | escape => exact window_grant _

/-! ## All moves -/

/-- The steps of some moves. After each of them the window is drawn. -/
def stepsOfAll (s : Session) : List Move → List Step
  | [] => []
  | m :: moves => s.stepsOf m ++ .gesture .look .byName :: (s.moved m).stepsOfAll moves

theorem window_foldl_moved (h : s.window.granted = s.window) (moves : List Move) :
    (moves.foldl moved s).window = (s.stepsOfAll moves).foldl Window.stepped s.window := by
  induction moves generalizing s with
  | nil => rfl
  | cons m moves ih =>
      have hwindow := window_moved h m
      have hgranted : (s.moved m).window.granted = (s.moved m).window := by
        rw [hwindow]
        rfl
      rw [List.foldl_cons, ih hgranted, stepsOfAll, List.foldl_append, List.foldl_cons, hwindow]
      rfl

/-- **A session is a run of the window.** It begins with the drawing of a fresh one. -/
theorem window_run (moves : List Move) :
    (run moves).window = Window.run (.gesture .look .byName :: start.stepsOfAll moves) :=
  window_foldl_moved rfl moves

/-- What holds of the window after any steps holds of it in every session. -/
theorem of_forall_run {P : Window → Prop} (h : ∀ steps, P (Window.run steps))
    (moves : List Move) : P (run moves).window := by
  rw [window_run]
  exact h _

/-- For one, the simple field of a session always shows the value of its text. -/
theorem simpleResult_run (moves : List Move) : (run moves).window.simpleResult
    = Number.text (Simple.evaluate (run moves).window.simpleEntry) :=
  of_forall_run (P := fun w => w.simpleResult = Number.text (Simple.evaluate w.simpleEntry))
    (fun steps => (Window.inStep_run steps).result) moves

end Reckon.Session
