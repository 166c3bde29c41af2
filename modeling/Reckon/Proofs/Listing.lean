import Reckon.Proofs.Grammar

/-!
# Which listings are trees

A tree is read back from its listing (`Expr.ofListing_listing`), and this module says that nothing
else is: a listing that is read back as a tree is the listing of that tree. A listing may hold its
items in any order, with too few operands or too many, and its calls may take any number of
arguments, none included; the reader of listings looks at nothing but the height of its stack.

The invariant says what the stack stands for. The trees on it, from the bottom to the top, have been
listed in a row by the items that were read so far (`itemsOfAll_of_run`), so an item can neither be
lost nor take an operand that is not its own.
-/

namespace Reckon

/-- Values that were taken off a stack stood on top of it, in the opposite order. -/
theorem Listing.eq_append_of_popArguments {α : Type} {n : Nat} {before args stack rest : List α}
    (h : popArguments n before stack = some (args, rest)) :
    ∃ top, top.length = n ∧ args = top.reverse ++ before ∧ stack = top ++ rest := by
  induction n generalizing before stack with
  | zero =>
      cases h
      exact ⟨[], rfl, rfl, rfl⟩
  | succ n ih =>
      cases stack with
      | nil => cases h
      | cons a stack =>
          obtain ⟨top, hlen, hargs, hstack⟩ := ih h
          refine ⟨a :: top, congrArg (· + 1) hlen, ?_, congrArg (a :: ·) hstack⟩
          rw [hargs, List.reverse_cons, List.append_assoc, List.singleton_append]

namespace Expr

open Listing (run step)

/-- The listings in a row of a stack of trees with one more tree on top. -/
theorem itemsOfAll_reverse_cons (e : Expr) (stack : List Expr) :
    itemsOfAll (e :: stack).reverse = itemsOfAll stack.reverse ++ e.items := by
  rw [List.reverse_cons, itemsOfAll_append, itemsOfAll, itemsOfAll, List.append_nil]

/-- An item ends the listing of the tree that it puts on the stack. -/
theorem itemsOfAll_of_step {i : Item} {stack after : List Expr}
    (h : step nodes i stack = .ok after) :
    itemsOfAll after.reverse = itemsOfAll stack.reverse ++ [i] := by
  cases i with
  | num v =>
      obtain rfl : num v :: stack = after := Except.ok.inj h
      rw [itemsOfAll_reverse_cons, items]
  | var x =>
      obtain rfl : var x :: stack = after := Except.ok.inj h
      rw [itemsOfAll_reverse_cons, items]
  | op o =>
      match o, stack, h with
      | .neg, a :: stack, h =>
          obtain rfl : neg a :: stack = after := Except.ok.inj h
          rw [itemsOfAll_reverse_cons, itemsOfAll_reverse_cons, items, List.append_assoc]
      | .bin op, b :: a :: stack, h =>
          obtain rfl : bin op a b :: stack = after := Except.ok.inj h
          rw [itemsOfAll_reverse_cons, itemsOfAll_reverse_cons, itemsOfAll_reverse_cons, items]
          simp only [List.append_assoc]
  | call f n =>
      rw [step] at h
      cases htop : Listing.popArguments n [] stack with
      | none =>
          rw [htop] at h
          cases h
      | some top =>
          obtain ⟨args, rest⟩ := top
          rw [htop] at h
          obtain rfl : call f args :: rest = after := Except.ok.inj h
          obtain ⟨top, rfl, rfl, rfl⟩ := Listing.eq_append_of_popArguments htop
          rw [List.append_nil, itemsOfAll_reverse_cons, items, List.length_reverse,
            List.reverse_append, itemsOfAll_append, List.append_assoc]

/-- **What the stack stands for.** The trees that a run leaves, listed in a row, are the trees that
it started on and after them the items that it read. -/
theorem itemsOfAll_of_run {l : Listing} {stack after : List Expr}
    (h : run nodes l stack = .ok after) :
    itemsOfAll after.reverse = itemsOfAll stack.reverse ++ l := by
  induction l generalizing stack with
  | nil =>
      cases h
      rw [List.append_nil]
  | cons i l ih =>
      unfold run at h
      split at h
      · rename_i next hstep
        rw [ih h, itemsOfAll_of_step hstep, List.append_assoc, List.singleton_append]
      · cases h

/-- A listing that is read back is the listing of what is read. -/
theorem eq_items_of_ofListing {l : Listing} {e : Expr} (h : ofListing l = .ok e) :
    l = e.items := by
  unfold ofListing Listing.result at h
  split at h
  · rename_i tree hrun
    cases h
    have hitems := itemsOfAll_of_run hrun
    rw [itemsOfAll_reverse_cons] at hitems
    exact hitems.symm
  · cases h
  · cases h

/-- A tree is read back from the listing that is written down for it. -/
theorem ofListing_items (e : Expr) : ofListing e.items = .ok e := by
  rw [← listing_eq_items, ofListing_listing]

/-- **A listing is read back as a tree exactly if it is the listing of that tree.** So every tree is
read back from its listing and from no other. -/
theorem ofListing_exact (l : Listing) (e : Expr) :
    (ofListing l = .ok e ↔ l = e.items)
    ∧ ofListing e.items = .ok e
    ∧ ∀ k, ofListing l = .ok e → ofListing k = .ok e → l = k := by
  refine ⟨⟨eq_items_of_ofListing, ?_⟩, ofListing_items e, fun k hl hk => ?_⟩
  · rintro rfl
    exact ofListing_items e
  · rw [eq_items_of_ofListing hl, eq_items_of_ofListing hk]

/-- A call without arguments is a tree like any other, and a call cannot take the operand of an
operator that comes later. -/
example : ofListing [.call .max 0, .num 1, .call .sqrt 2]
      = .ok (.call .sqrt [.call .max [], .num 1])
    ∧ ofListing [.num 1, .call .sqrt 1, .op (.bin .add)] = .error .missingOperand :=
  ⟨rfl, rfl⟩

end Expr

end Reckon
