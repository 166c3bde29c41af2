import Reckon.Proofs.Stages
import Reckon.Window.Gesture

/-!
# Runs of the window

Whatever is said of every state of the window is said of every list of steps from a fresh window,
a step being a gesture or an edit of a field. One step may do several things, in an order that the
layout decides, so steps are taken apart into operations, which do one thing each. An invariant is
proved for one operation at a time and then holds of all runs (`History.induction`).

Some of what is said of a state is about how it came to be. A `History` goes along with the window
and remembers what the window itself does not: the value of the latest evaluation that had one.
`Effect` sorts the operations by what they do to the results, and is all that most invariants need
to know of them.
-/

namespace Reckon

namespace Window

/-! ## Steps and operations -/

/-- What a person does: a gesture, or an edit of a field. If the gesture evaluates the entry, it
does so in a scope that is read anew and has an order of its own. -/
inductive Step
  | gesture (g : Gesture) (order : Scope.Order)
  | editEntry (text : String)
  | editRow (i : Nat) (row : Row)
  | editSimple (text : String)

/-- Changes the text of the entry, which evaluates nothing. -/
def editEntry (w : Window) (text : String) : Window := { w with entry := text }

/-- The window after a step. -/
def stepped (w : Window) : Step → Window
  | .gesture g order => w.after g order
  | .editEntry text => w.editEntry text
  | .editRow i row => w.setRow i row
  | .editSimple text => w.editSimple text

/-- The window after some steps, from a fresh one. -/
def run (steps : List Step) : Window := steps.foldl stepped fresh

/-- What there is to complain about when a row too many is asked for. -/
def tooManyRows : Complaint := .ofScope "nombre maximal de variables atteint"

/-- The parts of steps. -/
inductive Operation
  | clearEntry
  | clearResults
  | reset
  | refresh (order : Scope.Order)
  | insertWord (word : String)
  | insertCall (name : String)
  | requestRow
  | removeRow (i : Nat)
  | editEntry (text : String)
  | editRow (i : Nat) (row : Row)
  | editSimple (text : String)
  | grant

namespace Operation

/-- The window after an operation. -/
def apply (w : Window) : Operation → Window
  | clearEntry => w.clearEntry
  | clearResults => w.clearResults
  | reset => fresh
  | refresh order => w.refresh order
  | insertWord word => w.insertWord word
  | insertCall name => w.insertCall name
  | requestRow => if w.hasRoom then w.addRow else w.complain tooManyRows
  | removeRow i => w.removeRow i
  | editEntry text => w.editEntry text
  | editRow i row => w.setRow i row
  | editSimple text => w.editSimple text
  | grant => w.granted

/-- What a button does before an entry that loses the keyboard is evaluated. -/
def before : Button → List Operation
  | .clearEntry => [clearEntry]
  | .clearResults => [clearResults]
  | .reset => [reset]
  | _ => []

/-- What a button does after that. -/
def afterwards : Button → List Operation
  | .function f => [insertCall f.name]
  | .constant x => [insertWord x]
  | .addRow => [requestRow]
  | _ => []

end Operation

/-- The operations that a step is made of, in their order. -/
def Step.operations : Step → List Operation
  | .gesture (.press b focused) order =>
    .grant :: (Operation.before b ++ (if focused || b = .evaluate then [.refresh order] else [])
      ++ Operation.afterwards b)
  | .gesture (.removeRow i focused) order =>
    .grant :: ((if focused then [.refresh order] else []) ++ [.removeRow i])
  | .gesture .enter order => [.grant, .refresh order]
  | .gesture .escape _ => [.clearEntry, .grant]
  | .gesture (.typeSimple text) _ => [.grant, .editSimple (oneLine text)]
  | .gesture .look _ => [.grant]
  | .editEntry text => [.editEntry text]
  | .editRow i row => [.editRow i row]
  | .editSimple text => [.editSimple text]

theorem before_eq (w : Window) (b : Button) :
    (Operation.before b).foldl Operation.apply w = b.actBefore w := by
  cases b <;> rfl

theorem afterwards_eq (w : Window) (b : Button) :
    (Operation.afterwards b).foldl Operation.apply w = b.actAfter w := by
  cases b <;> rfl

/-- A step does what its operations do in a row. -/
theorem stepped_eq (w : Window) (s : Step) :
    w.stepped s = s.operations.foldl Operation.apply w := by
  match s with
  | .gesture (.press b focused) order =>
      rw [Step.operations, List.foldl_cons, List.foldl_append, List.foldl_append, before_eq,
        afterwards_eq]
      change b.actAfter (if focused || b = .evaluate then _ else _) = _
      split <;> rfl
  | .gesture (.removeRow i focused) order => cases focused <;> rfl
  | .gesture .enter _ | .gesture .escape _ | .gesture (.typeSimple text) _ | .gesture .look _
  | .editEntry text | .editRow i row | .editSimple text => rfl

theorem run_eq (steps : List Step) :
    run steps = (steps.flatMap Step.operations).foldl Operation.apply fresh := by
  rw [List.foldl_flatMap, run]
  congr 1
  funext w s
  exact w.stepped_eq s

/-! ## Evaluating an input -/

/-- What an evaluation of an input comes to, in a scope with some order. -/
def assess (input : String × List Row) (order : Scope.Order) : Except Complaint Analysis :=
  match Row.scopeOf input.2 order with
  | .error e => .error (.ofScope e.message)
  | .ok scope => (analyse input.1 scope).mapError .ofFault

/-- Shows what an evaluation came to. -/
def present (w : Window) : Except Complaint Analysis → Window
  | .ok a => w.showResult a.value (.ofAnalysis a)
  | .error c => w.complain c

theorem evaluate_eq (w : Window) (order : Scope.Order) :
    w.evaluate order = w.present (assess w.input order) := by
  unfold evaluate assess input
  dsimp only
  cases Row.scopeOf w.rows order with
  | error e => rfl
  | ok scope =>
      dsimp only
      cases analyse w.entry scope <;> rfl

theorem assess_of_scopeOf {text : String} {rows : List Row} {scope : Scope}
    (h : Row.scopeOf rows = .ok scope) (order : Scope.Order) :
    assess (text, rows) order = (analyse text (scope.inOrder order)).mapError .ofFault := by
  unfold assess
  dsimp only
  rw [Row.scopeOf_eq_map, h]
  rfl

theorem assess_of_rowFault {text : String} {rows : List Row} {e : RowFault}
    (h : Row.scopeOf rows = .error e) (order : Scope.Order) :
    assess (text, rows) order = .error (.ofScope e.message) := by
  unfold assess
  dsimp only
  rw [Row.scopeOf_eq_map, h]
  rfl

theorem analyse_of_assess {text : String} {scope : Scope} {a : Analysis}
    (h : (analyse text scope).mapError Complaint.ofFault = .ok a) : analyse text scope = .ok a := by
  cases ha : analyse text scope with
  | error f => rw [ha] at h; cases h
  | ok b => rw [ha] at h; cases h; rfl

/-- **An evaluation that has a value has it in every order**, because its scope is finite. -/
theorem analyse_of_assess_eq_ok {text : String} {rows : List Row} {order : Scope.Order}
    {a : Analysis} (h : assess (text, rows) order = .ok a) (order' : Scope.Order) :
    ∃ scope, Row.scopeOf rows order' = .ok scope ∧ analyse text scope = .ok a := by
  cases hrows : Row.scopeOf rows with
  | error e =>
      rw [assess_of_rowFault hrows] at h
      cases h
  | ok scope =>
      rw [assess_of_scopeOf hrows] at h
      have ha := analyse_of_assess h
      have hfinite : (scope.inOrder order).IsFinite :=
        Scope.checkFinite_eq_ok_iff.mp (admitText_checkFinite (analyse_stages ha).admitted)
      refine ⟨scope.inOrder order', ?_, ?_⟩
      · rw [Row.scopeOf_eq_map, hrows]
        rfl
      · rw [← ha]
        refine analyse_inOrder text (scope.inOrder order) ?_
        rw [Scope.firstNonFinite?_eq_none_iff.mpr hfinite]
        exact Scope.firstNonFinite?_eq_none_iff.mpr hfinite

end Window

/-! ## Histories -/

/-- The window, and what it has come from. -/
structure History where
  window : Window
  /-- The value of the latest evaluation that had one, since the results were last cleared. -/
  latest : Option Float

namespace History

open Window (Operation Step)

/-- Before the first step. -/
def start : History := ⟨.fresh, none⟩

/-- The latest value after an operation. An input that has just been evaluated is not evaluated. -/
def latestAfter (h : History) : Operation → Option Float
  | .clearResults | .reset => none
  | .refresh order =>
    if h.window.isStale then
      match Window.assess h.window.input order with
      | .ok a => some a.value
      | .error _ => h.latest
    else h.latest
  | _ => h.latest

def after (h : History) (o : Operation) : History := ⟨o.apply h.window, h.latestAfter o⟩

/-- The history of some steps. -/
def ofSteps (steps : List Step) : History := (steps.flatMap Step.operations).foldl after start

/-- A history goes along with the run. -/
@[simp] theorem window_ofSteps (steps : List Step) : (ofSteps steps).window = Window.run steps := by
  rw [Window.run_eq, ofSteps]
  exact (List.foldl_hom History.window fun _ _ => rfl).symm

/-- What every operation preserves holds after any steps. -/
theorem induction {P : History → Prop} (hstart : P start) (hafter : ∀ h o, P h → P (h.after o))
    (steps : List Step) : P (ofSteps steps) := by
  rw [ofSteps]
  exact List.foldlRecOn _ after hstart fun h hh o _ => hafter h o hh

end History

/-! ## What an operation does to the results -/

namespace Window

/-- Two windows with the same results, which are those of the same input. -/
structure SameResults (w w' : Window) : Prop where
  result : w'.result = w.result
  complaint : w'.complaint = w.complaint
  working : w'.working = w.working
  evaluated : w'.evaluated = w.evaluated

/-- A window that no evaluation has left anything in. -/
structure IsCleared (w : Window) : Prop where
  result : w.result = ""
  complaint : w.complaint = .blank
  working : w.working = .blank
  evaluated : w.evaluated = none

end Window

namespace History

open Window (Operation)

/-- All that can happen to the results. -/
inductive Effect (h h' : History) : Prop
  /-- They are let alone. -/
  | kept (same : h.window.SameResults h'.window) (latest : h'.latest = h.latest)
  | cleared (cleared : h'.window.IsCleared) (latest : h'.latest = none)
  /-- The input is evaluated and has a value. -/
  | succeeded {order : Scope.Order} {a : Analysis} (stale : h.window.isStale = true)
      (assessed : Window.assess h.window.input order = .ok a)
      (window : h'.window = h.window.remember.showResult a.value (.ofAnalysis a))
      (latest : h'.latest = some a.value)
  /-- The input is evaluated and has none. -/
  | failed {order : Scope.Order} {c : Complaint} (stale : h.window.isStale = true)
      (assessed : Window.assess h.window.input order = .error c)
      (window : h'.window = h.window.remember.complain c) (latest : h'.latest = h.latest)
  /-- A row too many is asked for. -/
  | refused (full : h.window.hasRoom = false)
      (window : h'.window = h.window.complain Window.tooManyRows) (latest : h'.latest = h.latest)

theorem effect_refresh (h : History) (order : Scope.Order) :
    h.Effect (h.after (.refresh order)) := by
  cases hstale : h.window.isStale with
  | false =>
      have hwindow : (h.after (.refresh order)).window = h.window := by
        change h.window.refresh order = h.window
        rw [Window.refresh, hstale]
        rfl
      refine .kept ?_ ?_
      · rw [hwindow]
        exact ⟨rfl, rfl, rfl, rfl⟩
      · rw [after, latestAfter, hstale]
        rfl
  | true =>
      have hwindow : (h.after (.refresh order)).window
          = h.window.remember.present (Window.assess h.window.input order) := by
        change h.window.refresh order = _
        rw [Window.refresh, hstale, if_pos rfl, Window.evaluate_eq]
        rfl
      have hlatest : (h.after (.refresh order)).latest
          = match Window.assess h.window.input order with
            | .ok a => some a.value
            | .error _ => h.latest := by
        rw [after, latestAfter, hstale]
        rfl
      cases ha : Window.assess h.window.input order with
      | ok a => rw [ha] at hwindow hlatest; exact .succeeded hstale ha hwindow hlatest
      | error c => rw [ha] at hwindow hlatest; exact .failed hstale ha hwindow hlatest

/-- **Every operation has one of the effects.** -/
theorem effect_after (h : History) (o : Operation) : h.Effect (h.after o) := by
  cases o with
  | refresh order => exact h.effect_refresh order
  | clearResults => exact .cleared ⟨rfl, rfl, rfl, rfl⟩ rfl
  | reset => exact .cleared ⟨rfl, rfl, rfl, rfl⟩ rfl
  | requestRow =>
      change Effect h ⟨if h.window.hasRoom then h.window.addRow else _, h.latest⟩
      cases hroom : h.window.hasRoom with
      | true =>
          refine .kept ?_ rfl
          rw [if_pos rfl, Window.addRow, hroom]
          exact ⟨rfl, rfl, rfl, rfl⟩
      | false => exact .refused hroom rfl rfl
  | _ => exact .kept ⟨rfl, rfl, rfl, rfl⟩ rfl

end History

end Reckon
