import Reckon.Proofs.Names

/-!
# Walks with a stack

A tree may be as deep as its text is long, so a walk over it need not descend by recursion: a loop
can keep the trees that it has still to look at on a stack, take the top one off in each round, and
put the trees below it in its place. What such a loop does is said by what a single round does.

`Loop.Ends` is the rule for it. Every state of a loop has an ending, which no round changes, and a
cost, which every round brings down; so the loop reaches its ending within its cost, and meets no
fault on the way that is not the fault of its ending. The stacks are arbitrary in it: a round is
looked at on any stack at all, since the trees below the top one wait there for their turn.

The first walk is the search for a name that is left in a tree. It meets the names in reading order,
because the operands of a node go onto the stack the last one first (`after_search`).
-/

namespace Reckon

/-! ## Loops -/

namespace Loop

variable {ε σ : Type} {round : σ → Except ε σ} {cost : σ → Nat} {ending : σ → Except ε σ}

/-- The state of a loop after some rounds. -/
def after (round : σ → Except ε σ) : Nat → σ → Except ε σ
  | 0, s => .ok s
  | n + 1, s => (round s).bind (after round n)

theorem after_succ {s next : σ} (h : round s = .ok next) (n : Nat) :
    after round (n + 1) s = after round n next := by
  rw [after, h]
  rfl

/-- Some rounds, and then some more. -/
theorem after_add {m : Nat} {s next : σ} (h : after round m s = .ok next) (n : Nat) :
    after round (m + n) s = after round n next := by
  induction m generalizing s with
  | zero =>
      cases h
      rw [Nat.zero_add]
  | succ m ih =>
      rw [Nat.succ_add]
      cases hs : round s with
      | error f =>
          rw [after, hs] at h
          cases h
      | ok s' =>
          rw [after_succ hs] at h ⊢
          exact ih h

/-- A loop that comes to an end: each state has an ending that no round changes, and a cost that
each round brings down. A state without cost is its own ending, and no round changes it. -/
structure Ends (round : σ → Except ε σ) (cost : σ → Nat) (ending : σ → Except ε σ) : Prop where
  keeps : ∀ s, (round s).bind ending = ending s
  falls : ∀ s next, 0 < cost s → round s = .ok next → cost next < cost s
  stays : ∀ s, cost s = 0 → round s = .ok s
  ended : ∀ s, cost s = 0 → ending s = .ok s

namespace Ends

variable (h : Ends round cost ending)

include h

theorem ending_of_ok {s next : σ} (hs : round s = .ok next) : ending next = ending s := by
  rw [← h.keeps s, hs]
  rfl

theorem ending_of_error {s : σ} {f : ε} (hs : round s = .error f) : ending s = .error f := by
  rw [← h.keeps s, hs]
  rfl

theorem cost_le_of_ok {s next : σ} {n : Nat} (hs : round s = .ok next) (hn : cost s ≤ n + 1) :
    cost next ≤ n := by
  by_cases hzero : cost s = 0
  · obtain rfl : s = next := Except.ok.inj ((h.stays s hzero).symm.trans hs)
    omega
  · have := h.falls s next (Nat.pos_of_ne_zero hzero) hs
    omega

/-- A fault that a round meets is the fault of the ending. -/
theorem ending_of_after {n : Nat} {s : σ} {f : ε} (hf : after round n s = .error f) :
    ending s = .error f := by
  induction n generalizing s with
  | zero => cases hf
  | succ n ih =>
      cases hs : round s with
      | error g =>
          rw [after, hs] at hf
          cases hf
          exact h.ending_of_error hs
      | ok next =>
          rw [after_succ hs] at hf
          rw [← h.ending_of_ok hs]
          exact ih hf

/-- A loop has reached its ending when it has made as many rounds as it costs. -/
theorem after_of_cost_le {n : Nat} {s : σ} (hn : cost s ≤ n) : after round n s = ending s := by
  induction n generalizing s with
  | zero =>
      rw [h.ended s (Nat.le_zero.mp hn)]
      rfl
  | succ n ih =>
      cases hs : round s with
      | error f =>
          rw [after, hs, h.ending_of_error hs]
          rfl
      | ok next => rw [after_succ hs, ih (h.cost_le_of_ok hs hn), h.ending_of_ok hs]

end Ends

end Loop

namespace Expr

theorem items_length_pos (e : Expr) : 0 < e.items.length := by
  cases e <;> simp [items, ← Nat.add_assoc]

theorem eq_nil_of_length_itemsOfAll {es : List Expr} (h : (itemsOfAll es).length = 0) :
    es = [] := by
  cases es with
  | nil => rfl
  | cons e es =>
      have := e.items_length_pos
      rw [itemsOfAll, List.length_append] at h
      omega

theorem length_itemsOfAll_append (as bs : List Expr) :
    (itemsOfAll (as ++ bs)).length = (itemsOfAll as).length + (itemsOfAll bs).length := by
  rw [itemsOfAll_append, List.length_append]

/-! ## Looking for a name -/

/-- One round of the search for a name: the top tree is taken off the stack, and the trees below it
are put there, the first one on top. A name ends the search. -/
def searchRound : List Expr → Except Fault (List Expr)
  | [] => .ok []
  | num _ :: todo => .ok todo
  | var x :: _ => .error (.unboundName x)
  | neg e :: todo => .ok (e :: todo)
  | bin _ a b :: todo => .ok (a :: b :: todo)
  | call _ args :: todo => .ok (args ++ todo)

/-- The ending of a search: the first name of the trees on the stack, if they have any. -/
def searchEnd (todo : List Expr) : Except Fault (List Expr) :=
  match (todo.flatMap names).head? with
  | some x => .error (.unboundName x)
  | none => .ok []

theorem search_ends :
    Loop.Ends searchRound (fun todo => (itemsOfAll todo).length) searchEnd where
  keeps todo := by
    match todo with
    | [] => rfl
    | num v :: todo => rfl
    | var x :: todo => rfl
    | neg e :: todo =>
        change searchEnd (e :: todo) = searchEnd (neg e :: todo)
        rw [searchEnd, searchEnd, List.flatMap_cons, List.flatMap_cons, names_neg]
    | bin op a b :: todo =>
        change searchEnd (a :: b :: todo) = searchEnd (bin op a b :: todo)
        rw [searchEnd, searchEnd, List.flatMap_cons, List.flatMap_cons, List.flatMap_cons,
          names_bin, List.append_assoc]
    | call f args :: todo =>
        change searchEnd (args ++ todo) = searchEnd (call f args :: todo)
        rw [searchEnd, searchEnd, List.flatMap_append, List.flatMap_cons, names_call]
  falls todo next hcost hround := by
    match todo, hround with
    | num v :: todo, hround =>
        obtain rfl : todo = next := Except.ok.inj hround
        simp [itemsOfAll, items]
    | neg e :: todo, hround =>
        obtain rfl : e :: todo = next := Except.ok.inj hround
        simp [itemsOfAll, items]
    | bin op a b :: todo, hround =>
        obtain rfl : a :: b :: todo = next := Except.ok.inj hround
        simp [itemsOfAll, items]
    | call f args :: todo, hround =>
        obtain rfl : args ++ todo = next := Except.ok.inj hround
        simp [itemsOfAll, items, length_itemsOfAll_append]
  stays todo hcost := by
    obtain rfl := eq_nil_of_length_itemsOfAll hcost
    rfl
  ended todo hcost := by
    obtain rfl := eq_nil_of_length_itemsOfAll hcost
    rfl

/-- The search of a tree looks at each node once at most, and refuses the tree as the check for
names does. -/
theorem after_search (e : Expr) :
    Loop.after searchRound e.items.length [e] = e.checkBound.map fun _ => [] := by
  have hcost : (itemsOfAll [e]).length = e.items.length := by
    rw [itemsOfAll, itemsOfAll, List.append_nil]
  rw [search_ends.after_of_cost_le (Nat.le_of_eq hcost), searchEnd, List.flatMap_singleton,
    checkBound_eq]
  cases e.names.head? <;> rfl

end Expr

end Reckon
