import Reckon.Expr

/-!
# Giving names their values

`subst` replaces every name that has a value by that value and leaves the rest of the tree as it
is. `bind` computes the same tree from the listing, so that the depth of the tree does not matter;
`bind_eq_subst` says that it is the same.
-/

namespace Reckon.Expr

open Listing (Meaning)

mutual

/-- A tree with every name that `value?` knows replaced by its value. -/
def subst (value? : String → Option Float) : Expr → Expr
  | num v => num v
  | var x => (value? x).elim (var x) num
  | neg e => neg (e.subst value?)
  | bin op a b => bin op (a.subst value?) (b.subst value?)
  | call f args => call f (substAll value? args)

/-- As `subst`, on each of some trees. -/
def substAll (value? : String → Option Float) : List Expr → List Expr
  | [] => []
  | a :: args => a.subst value? :: substAll value? args

end

theorem substAll_eq_map (value? : String → Option Float) (args : List Expr) :
    substAll value? args = args.map (subst value?) := by
  induction args with
  | nil => rfl
  | cons a args ih => simp [substAll, ih]

/-- A binding that knows nothing changes nothing. -/
theorem subst_none (e : Expr) : e.subst (fun _ => none) = e := by
  induction e using Expr.induction with
  | num v => rfl
  | var x => rfl
  | neg e ih => rw [subst, ih]
  | bin op a b iha ihb => rw [subst, iha, ihb]
  | call fn args ih => rw [subst, substAll_eq_map, List.map_congr_left ih, List.map_id']

/-- The items of a listing as nodes of a tree, names that have a value as numbers. -/
def boundNodes (value? : String → Option Float) : Meaning Expr :=
  { nodes with var := fun x => .ok ((value? x).elim (var x) num) }

theorem fold_boundNodes (value? : String → Option Float) (e : Expr) :
    e.fold (boundNodes value?) = .ok (e.subst value?) := by
  induction e using Expr.induction with
  | num v => rfl
  | var x => rfl
  | neg e ih => rw [fold, ih]; rfl
  | bin op a b iha ihb => rw [fold, iha, ihb]; rfl
  | call f args ih => rw [fold, foldAll_of_forall ih, subst, substAll_eq_map]; rfl

/-- A tree with its names bound. Reading the listing of a tree cannot fail. -/
def bind (value? : String → Option Float) (e : Expr) : Expr :=
  match h : Listing.result (boundNodes value?) e.listing with
  | .ok bound => bound
  | .error _ => by simp [result_listing, fold_boundNodes] at h

theorem bind_eq_subst (value? : String → Option Float) (e : Expr) :
    e.bind value? = e.subst value? := by
  unfold bind
  split
  · rename_i h
    rw [result_listing, fold_boundNodes] at h
    exact (Except.ok.inj h).symm
  · rename_i h
    rw [result_listing, fold_boundNodes] at h
    cases h

/-- The first name of a tree, in reading order. -/
def firstName? (e : Expr) : Option String := e.listing.firstName?

end Reckon.Expr
