import Reckon.Proofs.Display.Shown
import Reckon.Proofs.Window.Rows
import Reckon.Proofs.Window.Run

/-!
# Evaluating an input again

An input that has just been evaluated is not evaluated again. Nobody sees the difference as long as
the outputs are still those that an evaluation would have, and there are two ways in which they may
not be.

The outputs can change in another way. Then the input on record must be forgotten, and clearing the
results does so. Asking for a row too many does not: it complains and takes the working away, and
evaluating the same input again brings nothing back until the input changes or the results are
cleared.

And an evaluation need not come out twice in the same way. If the rows bind two names to numbers
that are not finite, the scope is refused for the one that is met first, and the next time it may be
the other. In all other inputs the order of the scope does not show (`assess_eq_assess`).

The invariant says that there is no third way (`Recalls`); `refresh_outputs_eq_iff` draws the line.
-/

namespace Reckon

namespace Window

/-- What an evaluation fills. -/
structure Outputs where
  result : String
  complaint : Complaint
  working : Working
deriving DecidableEq

def outputs (w : Window) : Outputs := ⟨w.result, w.complaint, w.working⟩

/-- The window without its record of the last evaluation. -/
def forget (w : Window) : Window := { w with evaluated := none }

/-- The outputs of an evaluation. One without a value leaves the result `old`. -/
def Outputs.ofAssessed (old : String) : Except Complaint Analysis → Outputs
  | .ok a => ⟨Number.text a.value, .blank, .ofAnalysis a⟩
  | .error c => ⟨old, c, .blank⟩

theorem outputs_present (w : Window) (r : Except Complaint Analysis) :
    (w.present r).outputs = .ofAssessed w.result r := by
  cases r <;> rfl

theorem outputs_eq_of_sameResults {w w' : Window} (same : w.SameResults w') :
    w'.outputs = w.outputs := by
  rw [outputs, outputs, same.result, same.complaint, same.working]

/-! ## The refusal of a row is told from every other complaint -/

theorem assess_ne_tooManyRows (input : String × List Row) (order : Scope.Order) :
    assess input order ≠ .error tooManyRows := by
  unfold assess
  split
  · rename_i e he
    intro h
    have hmessage : e.message = "nombre maximal de variables atteint" :=
      congrArg Complaint.text (Except.error.inj h)
    exact RowFault.message_ne (by cases e <;> rintro ⟨⟩) hmessage
  · rename_i scope hscope
    cases analyse input.1 scope with
    | ok a => rintro ⟨⟩
    | error f =>
        intro h
        have hkind : f.kind.name = "Portée" := congrArg Complaint.kind (Except.error.inj h)
        revert hkind
        cases f.kind <;> decide

/-- No evaluation complains of too many rows. -/
theorem Outputs.complaint_ofAssessed_ne (old : String) (input : String × List Row)
    (order : Scope.Order) : (ofAssessed old (assess input order)).complaint ≠ tooManyRows := by
  cases h : assess input order with
  | ok a => exact (by decide : Complaint.blank ≠ tooManyRows)
  | error c =>
      rintro rfl
      exact assess_ne_tooManyRows input order h

/-! ## What the order of the scope decides -/

/-- There is something to evaluate, and the rows bind two names to numbers that are not finite. -/
def Ambiguous (input : String × List Row) : Prop :=
  ¬ Text.AllBlank input.1 ∧ ∃ scope, Row.scopeOf input.2 = .ok scope ∧ scope.IsAmbiguous

variable {input : String × List Row}

/-- **Otherwise nothing is left to the order.** -/
theorem assess_eq_assess (h : ¬ Ambiguous input) (order order' : Scope.Order) :
    assess input order = assess input order' := by
  obtain ⟨text, rows⟩ := input
  cases hrows : Row.scopeOf rows with
  | error e => rw [assess_of_rowFault hrows, assess_of_rowFault hrows]
  | ok scope =>
      rw [assess_of_scopeOf hrows, assess_of_scopeOf hrows]
      by_cases hblank : Text.AllBlank text
      · rw [analyse_of_refused (admitText_of_allBlank _ hblank),
          analyse_of_refused (admitText_of_allBlank _ hblank)]
      · have hscope : ¬ scope.IsAmbiguous := fun hs => h ⟨hblank, scope, hrows, hs⟩
        rw [analyse_inOrder text scope (Scope.firstNonFinite?_inOrder hscope order),
          analyse_inOrder text scope (Scope.firstNonFinite?_inOrder hscope order')]

/-- A scope is refused for the first of its bindings that are not finite. -/
theorem assess_of_nonFinite {scope : Scope} {order : Scope.Order} {b : String × Float}
    (shown : ¬ Text.AllBlank input.1) (read : Row.scopeOf input.2 = .ok scope)
    (h : (scope.inOrder order).firstNonFinite? = some b) :
    assess input order = .error (.ofFault (.nonFiniteBinding b.1 b.2)) := by
  rw [assess_of_scopeOf read, analyse_of_refused (admitText_of_nonFinite shown h)]
  rfl

/-- A scope with two of them is refused for one of the two. -/
theorem Ambiguous.exists_assess_eq (h : Ambiguous input) (order : Scope.Order) :
    ∃ x v, assess input order = .error (.ofFault (.nonFiniteBinding x v)) := by
  obtain ⟨hshown, scope, hrows, b, hb, -, -, -, hbv, -⟩ := h
  cases hfirst : (scope.inOrder order).firstNonFinite? with
  | none =>
      have hfinite := Scope.firstNonFinite?_eq_none_iff.mp hfirst b hb
      rw [hbv] at hfinite
      cases hfinite
  | some c => exact ⟨c.1, c.2, assess_of_nonFinite hshown hrows hfirst⟩

theorem message_nonFiniteBinding (x : String) (v : Float) :
    (Fault.nonFiniteBinding x v).message.toList = "invalid expression: variable '".toList
      ++ (x.toList ++ '\'' :: (" is bound to a non-finite value (" ++ Number.text v ++ ")").toList)
      := by
  change ("invalid expression: " ++ ("variable '" ++ x ++ "' is bound to a non-finite value ("
    ++ Number.text v ++ ")")).toList = _
  simp [String.toList_append]

/-- The message tells the names of rows apart, for there is no quotation mark in them. -/
theorem name_eq_of_message_eq {x y : String} {v u : Float} (hx : Row.isName x = true)
    (hy : Row.isName y = true)
    (h : (Fault.nonFiniteBinding x v).message = (Fault.nonFiniteBinding y u).message) : x = y := by
  have htake : ∀ {z : String} {t : Float}, Row.isName z = true →
      ((Fault.nonFiniteBinding z t).message.toList.drop "invalid expression: variable '".length
        ).takeWhile Token.isNamePart = z.toList := by
    intro z t hz
    rw [message_nonFiniteBinding, ← String.length_toList, List.drop_left]
    exact Token.takeWhile_append_of_stop (Row.isNamePart_of_isName hz) (by simp [Token.isNamePart])
  rw [← String.toList_inj, ← htake hx, h, htake hy]

/-- It can be refused for the other one, too. -/
theorem Ambiguous.exists_assess_ne (h : Ambiguous input) (c : Complaint) :
    ∃ order x v, assess input order = .error (.ofFault (.nonFiniteBinding x v))
      ∧ c ≠ .ofFault (.nonFiniteBinding x v) := by
  obtain ⟨hshown, scope, hrows, b, hb, b', hb', hne, hbv, hbv'⟩ := h
  have hassess : ∀ d ∈ scope.bindings, d.2.isFinite = false →
      ∃ order, assess input order = .error (.ofFault (.nonFiniteBinding d.1 d.2)) := by
    intro d hd hdv
    obtain ⟨order, hfirst⟩ := Scope.exists_firstNonFinite?_eq hd hdv
    exact ⟨order, assess_of_nonFinite hshown hrows hfirst⟩
  by_cases hc : c = .ofFault (.nonFiniteBinding b.1 b.2)
  · obtain ⟨order, horder⟩ := hassess b' hb' hbv'
    refine ⟨order, _, _, horder, fun hc' => hne ?_⟩
    exact name_eq_of_message_eq (Row.isName_of_mem_bindings hrows hb)
      (Row.isName_of_mem_bindings hrows hb') (congrArg Complaint.text (hc.symm.trans hc'))
  · obtain ⟨order, horder⟩ := hassess b hb hbv
    exact ⟨order, _, _, horder, hc⟩

/-- Whether there is a value, and which, is the same in every order. -/
theorem Outputs.result_ofAssessed (old : String) (input : String × List Row)
    (order order' : Scope.Order) : (ofAssessed old (assess input order)).result
      = (ofAssessed old (assess input order')).result := by
  by_cases h : Ambiguous input
  · obtain ⟨x, v, hxv⟩ := h.exists_assess_eq order
    obtain ⟨y, u, hyu⟩ := h.exists_assess_eq order'
    rw [hxv, hyu]
    rfl
  · rw [assess_eq_assess h order order']

/-! ## The invariant -/

/-- The outputs are those of an evaluation, or were until a row was refused. -/
inductive Recalls (o : Outputs) (r : Except Complaint Analysis) : Prop
  | shown (h : .ofAssessed o.result r = o)
  | refused (complaint : o.complaint = tooManyRows) (working : o.working = .blank)
      (result : (Outputs.ofAssessed o.result r).result = o.result)

theorem Recalls.result {o : Outputs} {r : Except Complaint Analysis} (h : Recalls o r) :
    (Outputs.ofAssessed o.result r).result = o.result := by
  cases h with
  | shown h => exact congrArg Outputs.result h
  | refused _ _ result => exact result

/-- The outputs go with the input on record, as it was evaluated in some order. -/
def Memo (w : Window) : Prop :=
  ∀ input, w.evaluated = some input → ∃ order, Recalls w.outputs (assess input order)

theorem memo_fresh : Memo fresh := by
  rintro input ⟨⟩

end Window

open Window in
/-- **Operations preserve the invariant.** -/
theorem History.memo_after {h : History} (hm : Memo h.window) (o : Operation) :
    Memo (h.after o).window := by
  cases h.effect_after o with
  | kept same latest =>
      intro input he
      rw [outputs_eq_of_sameResults same]
      exact hm input (same.evaluated ▸ he)
  | cleared cleared latest =>
      intro input he
      rw [cleared.evaluated] at he
      cases he
  | succeeded stale assessed window latest =>
      rw [window]
      rintro input ⟨⟩
      exact ⟨_, .shown (by rw [assessed]; rfl)⟩
  | failed stale assessed window latest =>
      rw [window]
      rintro input ⟨⟩
      exact ⟨_, .shown (by rw [assessed]; rfl)⟩
  | refused full window latest =>
      rw [window]
      intro input he
      obtain ⟨order, hrecalls⟩ := hm input he
      exact ⟨order, .refused rfl rfl hrecalls.result⟩

namespace Window

theorem memo_run (steps : List Step) : Memo (run steps) := by
  rw [← History.window_ofSteps]
  exact History.induction (P := fun h => Memo h.window) memo_fresh
    (fun _ o hm => History.memo_after hm o) steps

/-! ## Evaluating twice -/

variable {w : Window}

theorem refresh_of_stale (h : w.isStale = true) (order : Scope.Order) :
    (w.refresh order).outputs = .ofAssessed w.result (assess w.input order) := by
  rw [refresh, if_pos h, evaluate_eq, outputs_present]
  rfl

theorem refresh_of_not_stale (h : w.isStale = false) (order : Scope.Order) :
    w.refresh order = w := by
  rw [refresh, h]
  rfl

theorem isStale_eq_false_iff : w.isStale = false ↔ w.evaluated = some w.input := by
  rw [isStale, bne_eq_false_iff_eq]

theorem refresh_forget (w : Window) (order : Scope.Order) :
    (w.forget.refresh order).outputs = .ofAssessed w.result (assess w.input order) :=
  refresh_of_stale rfl order

/-- An evaluation would complain of a binding that is not finite, and what the window complains of
is not that. -/
def NamesAnother (w : Window) (order : Scope.Order) : Prop :=
  ∃ x v, assess w.input order = .error (.ofFault (.nonFiniteBinding x v))
    ∧ w.complaint ≠ .ofFault (.nonFiniteBinding x v)

/-- Nothing is skipped unless the input is on record. -/
theorem refresh_outputs_of_stale (h : w.evaluated ≠ some w.input) (order : Scope.Order) :
    (w.refresh order).outputs = (w.forget.refresh order).outputs := by
  have hstale : w.isStale = true := by
    rw [← Bool.not_eq_false, isStale_eq_false_iff]
    exact h
  rw [refresh_forget, refresh_of_stale hstale]

/-- What is on record and refused a row is not brought back. -/
theorem refresh_outputs_of_refused (recorded : w.evaluated = some w.input)
    (refused : w.complaint = tooManyRows) (order : Scope.Order) :
    (w.refresh order).outputs ≠ (w.forget.refresh order).outputs := by
  rw [refresh_forget, refresh_of_not_stale (isStale_eq_false_iff.mpr recorded)]
  intro h
  exact Outputs.complaint_ofAssessed_ne w.result w.input order
    ((congrArg Outputs.complaint h).symm.trans refused)

/-- What is on record and shown is what an evaluation would show, unless that names another
binding. -/
theorem refresh_outputs_of_shown (recorded : w.evaluated = some w.input) {order₀ : Scope.Order}
    (shown : .ofAssessed w.result (assess w.input order₀) = w.outputs) (order : Scope.Order) :
    (w.refresh order).outputs = (w.forget.refresh order).outputs ↔ ¬ w.NamesAnother order := by
  rw [refresh_forget, refresh_of_not_stale (isStale_eq_false_iff.mpr recorded)]
  constructor
  · rintro h ⟨x, v, hassess, hne⟩
    rw [hassess] at h
    exact hne (congrArg Outputs.complaint h)
  · intro h
    by_cases hambiguous : Ambiguous w.input
    · obtain ⟨x, v, hxv⟩ := hambiguous.exists_assess_eq order
      obtain ⟨y, u, hyu⟩ := hambiguous.exists_assess_eq order₀
      have hcomplaint : w.complaint = .ofFault (.nonFiniteBinding x v) :=
        not_not.mp fun hne => h ⟨x, v, hxv, hne⟩
      rw [hyu] at shown
      have hworking : w.working = .blank := (congrArg Outputs.working shown).symm
      rw [hxv, outputs, hcomplaint, hworking]
      rfl
    · rw [assess_eq_assess hambiguous order order₀, shown]

/-- In some order another binding is named exactly if there are two to be named. -/
theorem exists_namesAnother_iff {order₀ : Scope.Order}
    (shown : .ofAssessed w.result (assess w.input order₀) = w.outputs) :
    (∃ order, w.NamesAnother order) ↔ Ambiguous w.input := by
  constructor
  · rintro ⟨order, x, v, hassess, hne⟩
    by_contra hunambiguous
    rw [assess_eq_assess hunambiguous order₀ order, hassess] at shown
    exact hne (congrArg Outputs.complaint shown).symm
  · intro h
    obtain ⟨order, hother⟩ := h.exists_assess_ne w.complaint
    exact ⟨order, hother⟩

/-- An input on record is not without its result. -/
theorem Memo.result_refresh (hm : Memo w) (order : Scope.Order) :
    (w.refresh order).result = (w.forget.refresh order).result := by
  by_cases hrecorded : w.evaluated = some w.input
  · obtain ⟨order₀, hrecalls⟩ := hm w.input hrecorded
    rw [refresh_of_not_stale (isStale_eq_false_iff.mpr hrecorded)]
    calc w.result = (Outputs.ofAssessed w.result (assess w.input order₀)).result :=
          hrecalls.result.symm
      _ = (Outputs.ofAssessed w.result (assess w.input order)).result :=
          Outputs.result_ofAssessed _ _ _ _
      _ = (w.forget.refresh order).result :=
          (congrArg Outputs.result (w.refresh_forget order)).symm
  · exact congrArg Outputs.result (refresh_outputs_of_stale hrecorded order)

/-- **When skipping an evaluation shows.** After any steps, evaluating the input has the outputs of
an evaluation that remembers nothing, except if the input is on record and the window complains of a
row that was refused, or of a binding that is not finite and not of the one that the evaluation
would meet first. So they are the same in every order of the scope unless a row was refused or the
rows bind two names to numbers that are not finite. The result is the same in any case. -/
theorem refresh_outputs_eq_iff (steps : List Step) :
    let w := run steps
    (∀ order, (w.refresh order).outputs = (w.forget.refresh order).outputs
      ↔ ¬ (w.evaluated = some w.input
        ∧ (w.complaint = tooManyRows ∨ w.NamesAnother order)))
    ∧ ((∀ order, (w.refresh order).outputs = (w.forget.refresh order).outputs)
      ↔ ¬ (w.evaluated = some w.input ∧ (w.complaint = tooManyRows ∨ Ambiguous w.input)))
    ∧ ∀ order, (w.refresh order).result = (w.forget.refresh order).result := by
  have hm := memo_run steps
  generalize run steps = w at hm ⊢
  have hresult := hm.result_refresh
  by_cases hrecorded : w.evaluated = some w.input
  · obtain ⟨order₀, hrecalls⟩ := hm w.input hrecorded
    simp only [hrecorded, true_and]
    cases hrecalls with
    | shown shown =>
        have hne : w.complaint ≠ tooManyRows := fun h =>
          Outputs.complaint_ofAssessed_ne w.result w.input order₀
            ((congrArg Outputs.complaint shown).trans h)
        simp only [hne, false_or, refresh_outputs_of_shown hrecorded shown, true_and, implies_true]
        refine ⟨?_, hresult⟩
        rw [← not_exists, exists_namesAnother_iff shown]
    | refused complaint working result =>
        have hother := refresh_outputs_of_refused hrecorded complaint
        refine ⟨fun order => iff_of_false (hother order) fun h => h (.inl complaint),
          iff_of_false (fun h => hother .byName (h .byName)) fun h => h (.inl complaint), hresult⟩
  · have hsame := refresh_outputs_of_stale hrecorded
    exact ⟨fun order => iff_of_true (hsame order) fun h => hrecorded h.1,
      iff_of_true hsame fun h => hrecorded h.1, hresult⟩

/-- With twelve rows, an evaluation, a row too many and the same evaluation again: the working does
not come back. -/
theorem refresh_outputs_after_refusal :
    let w := run (List.replicate 9 (.gesture (.press .addRow false) .byName)
      ++ [.editEntry "1+1", .gesture .enter .byName, .gesture (.press .addRow false) .byName])
    (w.refresh .byName).outputs ≠ (w.forget.refresh .byName).outputs := by
  decide +kernel

/-- Two names without a finite number, and an order in which the other one comes first. -/
example :
    let w := run [.editRow 0 ⟨"a", "inf"⟩, .editRow 1 ⟨"b", "nan"⟩, .editEntry "1",
      .gesture .enter .byName]
    let order : Scope.Order := fun x => if x = "a" then 1 else 0
    (w.refresh order).outputs ≠ (w.forget.refresh order).outputs := by
  decide +kernel

end Window

end Reckon
