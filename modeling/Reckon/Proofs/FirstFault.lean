import Reckon.Proofs.Names

/-!
# The fault of a tree that has no value

A computation can stop at a name, and at a call whose function refuses the number of its arguments.
Which of them it reports is decided by the listing of the tree: the first item at which something is
wrong, taken by itself (`Expr.eval_eq_error_iff`). As a call stands behind its arguments there, it
is refused only when they all have values.

The number of its arguments is also all that a function can fail for. Once it is accepted, every
argument that the function looks up is there (`Builtin.applyByPosition_eq`).
-/

namespace Reckon

/-! ## Functions -/

namespace Builtin

/-- A function applied by position: the number of the arguments is checked, and then they are looked
up where they stand. There is no value if one is looked up past the last of them. -/
def applyByPosition {α : Type} [Number.Elementary α] (f : Builtin) (args : List α) :
    Except Fault (Option α) :=
  (f.checkArity args.length).map fun _ =>
    args[0]?.bind fun x =>
      match f with
      | sqrt => some (Number.Elementary.sqrt x)
      | sin => some (Number.Elementary.sin x)
      | cos => some (Number.Elementary.cos x)
      | tan => some (Number.Elementary.tan x)
      | log => some (Number.Elementary.log10 x)
      | ln => some (Number.Elementary.ln x)
      | abs => some (Number.Elementary.abs x)
      | exp => some (Number.Elementary.exp x)
      | pow => args[1]?.map (Number.Elementary.pow x)
      | min => some ((args.drop 1).foldl Number.least x)
      | max => some ((args.drop 1).foldl Number.greatest x)

/-- Where the number of the arguments is accepted, each that is looked up is there. -/
theorem applyByPosition_eq {α : Type} [Number.Elementary α] (f : Builtin) (args : List α) :
    f.applyByPosition args = (f.apply args).map some := by
  match args with
  | [] => cases f <;> rfl
  | [x] => cases f <;> rfl
  | [x, y] => cases f <;> rfl
  | x :: y :: z :: rest => cases f <;> rfl

theorem apply_of_not_accepts {α : Type} [Number.Elementary α] {f : Builtin} {args : List α}
    (h : f.arity.accepts args.length = false) : f.apply args = .error (.arity f args.length) := by
  have hposition := applyByPosition_eq f args
  rw [applyByPosition, checkArity, h] at hposition
  cases hf : f.apply args with
  | ok v =>
      rw [hf] at hposition
      cases hposition
  | error c =>
      rw [hf] at hposition
      cases hposition
      rfl

end Builtin

/-! ## Listings -/

/-- What is wrong with an item by itself: a name has no value, and a function refuses a number of
arguments. -/
def Item.fault? : Item → Option Fault
  | var x => some (.unboundName x)
  | call f n => if f.arity.accepts n then none else some (.arity f n)
  | _ => none

theorem Item.fault?_cases {i : Item} {fault : Fault} (h : i.fault? = some fault) :
    (∃ x, fault = .unboundName x) ∨ ∃ f n, fault = .arity f n := by
  cases i with
  | num v => cases h
  | var x => exact .inl ⟨x, (Option.some.inj h).symm⟩
  | op o => cases h
  | call f n =>
      rw [fault?] at h
      split at h
      · cases h
      · exact .inr ⟨f, n, (Option.some.inj h).symm⟩

/-- What comes of a listing by its items alone: a value if nothing is wrong with any of them, or
else the first fault. -/
inductive Listing.Meets {α : Type} (l : Listing) : Except Fault α → Prop
  | value (a : α) (clean : l.findSome? Item.fault? = none) : Meets l (.ok a)
  | fault {fault : Fault} (first : l.findSome? Item.fault? = some fault) : Meets l (.error fault)

namespace Listing.Meets

variable {α β : Type} {l k : Listing} {r : Except Fault α}

/-- In front of a listing nothing may be wrong. -/
theorem behind (clean : l.findSome? Item.fault? = none) (h : Meets k r) : Meets (l ++ k) r := by
  have happend : (l ++ k).findSome? Item.fault? = k.findSome? Item.fault? := by
    rw [List.findSome?_append, clean, Option.none_or]
  cases h with
  | value a hk => exact .value a (happend.trans hk)
  | fault hk => exact .fault (happend.trans hk)

/-- The second of two listings matters only if nothing is wrong with the first. -/
theorem bind {next : α → Except Fault β} (hr : Meets l r)
    (hnext : ∀ a, r = .ok a → Meets k (next a)) : Meets (l ++ k) (r.bind next) := by
  cases hr with
  | value a clean => exact (hnext a rfl).behind clean
  | fault first => exact .fault (by rw [List.findSome?_append, first, Option.some_or])

theorem map (hr : Meets l r) (g : α → β) : Meets l (r.map g) := by
  cases hr with
  | value a clean => exact .value (g a) clean
  | fault first => exact .fault first

/-- Nothing is wrong with an operator. -/
theorem operator (hr : Meets l r) (o : Operator) : Meets (l ++ [.op o]) r := by
  have happend : (l ++ [Item.op o]).findSome? Item.fault? = l.findSome? Item.fault? := by
    have hop : [Item.op o].findSome? Item.fault? = none := rfl
    rw [List.findSome?_append, hop, Option.or_none]
  cases hr with
  | value a clean => exact .value a (happend.trans clean)
  | fault first => exact .fault (happend.trans first)

/-- All that can be wrong with a call is the number of its arguments. -/
theorem call (f : Builtin) (args : List Float) :
    Meets [.call f args.length] (f.apply args) := by
  by_cases h : f.arity.accepts args.length = true
  · obtain ⟨v, hv⟩ := Builtin.exists_apply h
    rw [hv]
    exact .value v (by rw [List.findSome?_singleton, Item.fault?, if_pos h])
  · rw [Builtin.apply_of_not_accepts ((Bool.not_eq_true _).mp h)]
    exact .fault (by rw [List.findSome?_singleton, Item.fault?, if_neg h])

theorem error_iff (h : Meets l r) (fault : Fault) :
    r = .error fault ↔ l.findSome? Item.fault? = some fault := by
  cases h with
  | value a clean =>
      rw [clean]
      exact ⟨nofun, nofun⟩
  | fault first =>
      rw [first]
      exact ⟨fun h => congrArg some (Except.error.inj h), fun h => congrArg _ (Option.some.inj h)⟩

end Listing.Meets

namespace Expr

theorem meets_foldAll {args : List Expr}
    (h : ∀ a ∈ args, Listing.Meets a.items (a.fold numbers)) :
    Listing.Meets (itemsOfAll args) (foldAll numbers args) := by
  induction args with
  | nil => exact .value [] rfl
  | cons a args ih => exact (h a (.head _)).bind fun x _ => (ih fun b hb => h b (.tail _ hb)).map _

/-- The faults of a computation are those of the items of the tree. -/
theorem meets_fold (e : Expr) : Listing.Meets e.items (e.fold numbers) := by
  induction e using Expr.induction with
  | num v => exact .value v rfl
  | var x => exact .fault rfl
  | neg e ih => exact (ih.map _).operator .neg
  | bin op a b iha ihb =>
      rw [items, List.append_assoc]
      exact iha.bind fun x _ => (ihb.map _).operator (.bin op)
  | call f args ih =>
      refine (meets_foldAll ih).bind fun xs hxs => ?_
      rw [← length_of_foldAll hxs]
      exact .call f xs

/-- **The first fault in the listing is the fault of the tree.** -/
theorem eval_eq_error_iff {e : Expr} {fault : Fault} :
    e.eval = .error fault ↔ e.items.findSome? Item.fault? = some fault := by
  rw [← fold_numbers]
  exact e.meets_fold.error_iff fault

/-- A tree fails for a name or for a call that is not accepted. -/
theorem fault_cases {e : Expr} {fault : Fault} (h : e.eval = .error fault) :
    (∃ x, fault = .unboundName x) ∨ ∃ f n, fault = .arity f n := by
  obtain ⟨i, -, hi⟩ := List.exists_of_findSome?_eq_some (eval_eq_error_iff.mp h)
  exact Item.fault?_cases hi

end Expr

end Reckon
