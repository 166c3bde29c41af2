import Reckon.Proofs.Display.Shown
import Reckon.Proofs.Window.Run

/-!
# What is shown belongs together

The results of the window are four texts of a working, a result and a complaint, and several
operations write some of them and not others: a complaint takes the working away and leaves the
result, an edit changes the input and nothing that was computed from it. `Coherent` says what is
true of them in every state all the same. The working, when there is one, is that of the input on
record, and the result is that of the same analysis; without one the result may be older, but it is
the latest value there was.
-/

namespace Reckon

/-- A complaint with a class and a text. -/
structure Complaint.IsShown (c : Complaint) : Prop where
  kind : c.kind ≠ ""
  text : c.text ≠ ""

theorem Complaint.isShown_ofScope {text : String} (h : text ≠ "") : (ofScope text).IsShown :=
  ⟨(by decide : "Portée" ≠ ""), h⟩

theorem Complaint.isShown_ofFault (f : Fault) : (ofFault f).IsShown :=
  ⟨f.kind.name_ne_empty, f.message_ne_empty⟩

namespace Window

/-! ## What an evaluation comes to -/

theorem isShown_of_assess {input : String × List Row} {order : Scope.Order} {c : Complaint}
    (h : assess input order = .error c) : c.IsShown := by
  unfold assess at h
  split at h
  · rename_i e he
    cases h
    exact Complaint.isShown_ofScope e.message_ne_empty
  · rename_i scope hscope
    cases ha : analyse input.1 scope with
    | ok a => rw [ha] at h; cases h
    | error f =>
        rw [ha] at h
        cases h
        exact Complaint.isShown_ofFault f

theorem isShown_tooManyRows : tooManyRows.IsShown := Complaint.isShown_ofScope (by simp)

theorem isFull_of_assess {input : String × List Row} {order : Scope.Order} {a : Analysis}
    (h : assess input order = .ok a) : (Working.ofAnalysis a).IsFull := by
  obtain ⟨scope, -, ha⟩ := analyse_of_assess_eq_ok h order
  exact Working.isFull_ofAnalysis ha

theorem isFinite_of_assess {input : String × List Row} {order : Scope.Order} {a : Analysis}
    (h : assess input order = .ok a) : a.value.isFinite = true := by
  obtain ⟨scope, -, ha⟩ := analyse_of_assess_eq_ok h order
  exact (Expr.checkedValue_eq_ok_iff.mp (analyse_stages ha).value).2

/-! ## The invariant -/

/-- A working shows, all of it, without a complaint; with the result it is that of the input on
record, in whatever order its scope is gone through. -/
structure ShowsWorking (w : Window) : Prop where
  full : w.working.IsFull
  complaint : w.complaint.text = ""
  analysed : ∃ text rows a, w.evaluated = some (text, rows)
    ∧ (∀ order, ∃ scope, Row.scopeOf rows order = .ok scope ∧ analyse text scope = .ok a)
    ∧ w.working = .ofAnalysis a ∧ w.result = Number.text a.value

/-- What holds together in a window, `latest` being the value of the latest evaluation that had one
since the results were last cleared. -/
structure Coherent (w : Window) (latest : Option Float) : Prop where
  /-- A complaint has both its texts or none. -/
  complaint : w.complaint.kind = "" ↔ w.complaint.text = ""
  working : w.working = .blank ∨ w.ShowsWorking
  result : w.result = latest.elim "" Number.text
  finite : ∀ v ∈ latest, v.isFinite = true
  rows : w.rows.length ≤ mostRows

theorem ShowsWorking.kept {w w' : Window} (h : w.ShowsWorking) (same : w.SameResults w') :
    w'.ShowsWorking := by
  obtain ⟨text, rows, a, he, ha, hw, hr⟩ := h.analysed
  exact {
    full := same.working ▸ h.full
    complaint := same.complaint ▸ h.complaint
    analysed := ⟨text, rows, a, same.evaluated ▸ he, ha, same.working ▸ hw,
      same.result ▸ hr⟩ }

theorem showsWorking_of_assess {w : Window} {order : Scope.Order} {a : Analysis}
    (h : assess w.input order = .ok a) :
    (w.remember.showResult a.value (.ofAnalysis a)).ShowsWorking where
  full := isFull_of_assess h
  complaint := rfl
  analysed := ⟨w.entry, w.rows, a, rfl, analyse_of_assess_eq_ok h, rfl, rfl⟩

/-- A complaint takes the working away and leaves the result. -/
theorem Coherent.complain {w : Window} {latest : Option Float} (h : Coherent w latest)
    {c : Complaint} (hc : c.IsShown) (evaluated : Option (String × List Row)) :
    Coherent { w.complain c with evaluated } latest where
  complaint := iff_of_false hc.kind hc.text
  working := .inl rfl
  result := h.result
  finite := h.finite
  rows := h.rows

/-! ## Rows -/

theorem rows_refresh (w : Window) (order : Scope.Order) : (w.refresh order).rows = w.rows := by
  unfold refresh
  split
  · rw [evaluate_eq]
    cases assess w.remember.input order <;> rfl
  · rfl

theorem length_rows_apply {w : Window} (h : w.rows.length ≤ mostRows) (o : Operation) :
    (o.apply w).rows.length ≤ mostRows := by
  cases o with
  | reset => exact (by decide : fresh.rows.length ≤ mostRows)
  | refresh order =>
      rw [Operation.apply, rows_refresh]
      exact h
  | requestRow =>
      rw [Operation.apply]
      split
      · rename_i hroom
        have hlt : w.rows.length < mostRows := of_decide_eq_true hroom
        rw [addRow, if_pos hroom, List.length_append]
        exact hlt
      · exact h
  | removeRow i => exact Nat.le_trans (List.eraseIdx_sublist w.rows i).length_le h
  | editRow i row => exact Nat.le_trans (Nat.le_of_eq List.length_set) h
  | _ => exact h

end Window

namespace History

open Window (Operation Step Coherent)

/-! ## The invariant is preserved -/

theorem coherent_start : Coherent start.window start.latest where
  complaint := by decide
  working := .inl rfl
  result := rfl
  finite := by rintro v ⟨⟩
  rows := by decide

/-- **Operations preserve the invariant.** -/
theorem coherent_after {h : History} (hc : Coherent h.window h.latest) (o : Operation) :
    Coherent (h.after o).window (h.after o).latest := by
  have hrows : (h.after o).window.rows.length ≤ Window.mostRows :=
    Window.length_rows_apply hc.rows o
  cases h.effect_after o with
  | kept same latest =>
      rw [latest]
      exact {
        complaint := same.complaint ▸ hc.complaint
        working := hc.working.imp same.working.trans fun hw => hw.kept same
        result := same.result.trans hc.result
        finite := hc.finite
        rows := hrows }
  | cleared cleared latest =>
      rw [latest]
      exact {
        complaint := by rw [cleared.complaint]; decide
        working := .inl cleared.working
        result := cleared.result
        finite := by rintro v ⟨⟩
        rows := hrows }
  | succeeded stale assessed window latest =>
      rw [latest]
      have hfin := Window.isFinite_of_assess assessed
      exact {
        complaint := by rw [window]; exact iff_of_true rfl rfl
        working := by rw [window]; exact .inr (Window.showsWorking_of_assess assessed)
        result := by rw [window]; rfl
        finite := by rintro v ⟨⟩; exact hfin
        rows := hrows }
  | failed stale assessed window latest =>
      rw [window, latest]
      exact hc.complain (Window.isShown_of_assess assessed) (some h.window.input)
  | refused full window latest =>
      rw [window, latest]
      exact hc.complain Window.isShown_tooManyRows h.window.evaluated

end History

/-- **What is shown belongs together**, after any gestures and edits in any order. -/
theorem Window.run_coherent (steps : List Window.Step) :
    Coherent (run steps) (History.ofSteps steps).latest := by
  have h := History.induction (P := fun h => Coherent h.window h.latest) History.coherent_start
    (fun _ o hc => History.coherent_after hc o) steps
  rwa [History.window_ofSteps] at h

/-- A complaint leaves the result of the evaluation before it. -/
example : (Window.run [.editEntry "1+1", .gesture .enter .byName, .editEntry "1+",
    .gesture .enter .byName]).result = "2" := by
  decide +kernel

end Reckon
