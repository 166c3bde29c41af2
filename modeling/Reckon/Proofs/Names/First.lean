import Mathlib.Data.List.Basic
import Reckon.Proofs.Display.Bound
import Reckon.Proofs.FirstFault
import Reckon.Proofs.Names.Free
import Reckon.Proofs.Walk

/-!
# Which unknown name is reported

A text with several names that stand for nothing is refused for the first of them, in the order in
which it is read. Between the text and the report lie a listing, a tree, two bindings and a search
with a stack, and each keeps the order: the free names of the text are the names of the tree
(`Parsed.names_eq`), binding takes some of them out (`Expr.names_settle`), and the search meets what
is left from the left (`Expr.after_search`).

The check for names comes before the computation, and a computation would stop at a name as well. On
a tree whose calls are accepted the two say the same (`Expr.WellApplied.value_eq_error_iff`), so the
check refuses nothing that could have been computed.
-/

namespace Reckon

namespace Expr

theorem itemsOfAll_eq_flatMap (args : List Expr) : itemsOfAll args = args.flatMap items := by
  induction args with
  | nil => rfl
  | cons a args ih => rw [itemsOfAll, ih, List.flatMap_cons]

/-! ## A check and a computation -/

/-- In a tree whose calls are accepted only names are at fault. -/
theorem WellApplied.fault?_of_mem {e : Expr} (h : e.WellApplied) {i : Item} (hi : i ∈ e.items) :
    i.fault? = i.name?.map Fault.unboundName := by
  induction h with
  | num v =>
      obtain rfl := List.mem_singleton.mp hi
      rfl
  | var x =>
      obtain rfl := List.mem_singleton.mp hi
      rfl
  | neg he ih =>
      rw [items, List.mem_append, List.mem_singleton] at hi
      rcases hi with hi | rfl
      · exact ih hi
      · rfl
  | bin ha hb iha ihb =>
      rw [items, List.mem_append, List.mem_append, List.mem_singleton] at hi
      rcases hi with (hi | hi) | rfl
      · exact iha hi
      · exact ihb hi
      · rfl
  | call accepted hargs ih =>
      rw [items, List.mem_append, List.mem_singleton, itemsOfAll_eq_flatMap, List.mem_flatMap]
        at hi
      rcases hi with ⟨a, ha, hi⟩ | rfl
      · exact ih a ha hi
      · exact if_pos accepted

/-- So the first fault in its listing is its first name. -/
theorem WellApplied.findSome?_fault? {e : Expr} (h : e.WellApplied) :
    e.items.findSome? Item.fault? = e.names.head?.map Fault.unboundName := by
  rw [← List.head?_filterMap, List.filterMap_congr fun i hi => h.fault?_of_mem hi, names,
    Listing.names, ← List.head?_map, List.map_filterMap]

theorem WellApplied.value_eq_error_iff {e : Expr} (h : e.WellApplied) {fault : Fault} :
    e.value = .error fault ↔ ∃ x, e.names.head? = some x ∧ fault = .unboundName x := by
  rw [value_eq_eval, eval_eq_error_iff, h.findSome?_fault?, Option.map_eq_some_iff]
  exact exists_congr fun x => and_congr_right fun _ => eq_comm

theorem checkBound_eq_error_iff {e : Expr} {fault : Fault} :
    e.checkBound = .error fault ↔ ∃ x, e.names.head? = some x ∧ fault = .unboundName x := by
  rw [checkBound_eq]
  cases e.names.head? with
  | none => exact ⟨nofun, nofun⟩
  | some y =>
      refine ⟨fun h => ⟨y, rfl, (Except.error.inj h).symm⟩, ?_⟩
      rintro ⟨x, hx, rfl⟩
      rw [Option.some.inj hx]

end Expr

/-! ## The report -/

theorem Parsed.not_allBlank {text : String} {p : Parsed}
    (h : Parsed.ofText (Text.compact text) = .ok p) : ¬ Text.AllBlank text := by
  intro hblank
  rw [String.isEmpty_iff.mp (Text.isEmpty_compact_iff.mpr hblank)] at h
  exact Parsed.ofText_empty p h

/-- **The first name that stands for nothing.** A text that is read is refused, in a finite scope,
for the first of its free names that neither the scope nor the constants know; if they know them
all, the check for names passes. The check is a search with a stack, and on a tree whose calls are
accepted a computation fails exactly when the check does, for the same name. -/
theorem first_unbound_reported (text : String) (scope : Scope) (p : Parsed)
    (read : Parsed.ofText (Text.compact text) = .ok p) (finite : scope.IsFinite) :
    (∀ x, (Token.freeNames p.tokens).find? (fun x => (scope.value? x).isNone) = some x →
      evaluate text scope = .error (.unboundName x)
        ∧ (Fault.unboundName x).kind = .unsafeExpression)
    ∧ ((Token.freeNames p.tokens).find? (fun x => (scope.value? x).isNone) = none →
      (p.tree.settle scope).checkBound = .ok ())
    ∧ (∀ e : Expr, Loop.after Expr.searchRound e.items.length [e] = e.checkBound.map fun _ => [])
    ∧ ∀ e : Expr, e.WellApplied →
      (∀ fault, e.checkBound = .error fault ↔ e.value = .error fault)
      ∧ ∀ fault, e.value = .error fault →
          ∃ x, e.names.head? = some x ∧ fault = .unboundName x := by
  rw [← Parsed.names_eq read]
  refine ⟨fun x hx => ⟨?_, rfl⟩, fun hnone => ?_, Expr.after_search, fun e he => ⟨?_, ?_⟩⟩
  · have admitted : Admitted text scope := ⟨Parsed.not_allBlank read, finite⟩
    exact admitted.evaluate_of_unbound read hx
  · rw [Expr.checkBound_eq_ok_iff, Expr.names_settle, List.filter_eq_nil_iff]
    exact List.find?_eq_none.mp hnone
  · intro fault
    rw [Expr.checkBound_eq_error_iff, he.value_eq_error_iff]
  · intro fault
    exact he.value_eq_error_iff.mp

/-- The second and the fourth of the names stand for nothing in the first scope, and all of them for
something in the second. Before any binding the first name is the one that is refused. -/
theorem first_unbound_reported_of_quotient :
    let text := "2*pi - max(b, a)/c"
    let p := Scope.ofList [("a", 1)]
    let q := Scope.ofList [("a", 1), ("b", 2), ("c", 3)]
    (p.IsFinite ∧ q.IsFinite)
    ∧ ∃ parsed, Parsed.ofText (Text.compact text) = .ok parsed
      ∧ Token.freeNames parsed.tokens = ["pi", "b", "a", "c"]
      ∧ evaluate text p = .error (.unboundName "b")
      ∧ (parsed.tree.settle q).checkBound = .ok ()
      ∧ parsed.tree.WellApplied
      ∧ parsed.tree.checkBound = .error (.unboundName "pi")
      ∧ parsed.tree.value = .error (.unboundName "pi") := by
  intro text p q
  have hp : p.IsFinite := Scope.checkFinite_eq_ok_iff.mp rfl
  have hq : q.IsFinite := Scope.checkFinite_eq_ok_iff.mp rfl
  obtain ⟨parsed, read, hparsed⟩ := exists_ok_of_any
    (x := Parsed.ofText (Text.compact text))
    (p := fun parsed => decide (Token.freeNames parsed.tokens = ["pi", "b", "a", "c"]
      ∧ parsed.tree.names.head? = some "pi")) (by decide +kernel)
  obtain ⟨hnames, hhead⟩ := of_decide_eq_true hparsed
  have hfirst : (Token.freeNames parsed.tokens).find? (fun x => (p.value? x).isNone)
      = some "b" := by
    rw [hnames]
    decide +kernel
  have hnone : (Token.freeNames parsed.tokens).find? (fun x => (q.value? x).isNone) = none := by
    rw [hnames]
    decide +kernel
  have happlied : parsed.tree.WellApplied := Parsed.wellApplied read
  have hcheck : parsed.tree.checkBound = .error (.unboundName "pi") :=
    Expr.checkBound_eq_error_iff.mpr ⟨"pi", hhead, rfl⟩
  obtain ⟨hreport, -, -, hagree⟩ := first_unbound_reported text p parsed read hp
  obtain ⟨-, hpass, -, -⟩ := first_unbound_reported text q parsed read hq
  exact ⟨⟨hp, hq⟩, parsed, read, hnames, (hreport "b" hfirst).1, hpass hnone, happlied, hcheck,
    ((hagree parsed.tree happlied).1 _).mp hcheck⟩

end Reckon
