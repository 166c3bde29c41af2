import Reckon.Proofs.FirstFault
import Reckon.Proofs.Walk

/-!
# Computing a tree with two stacks

The value of a tree can be computed in one walk over the tree itself. The work that is left stands
on one stack, trees to be visited and operators and calls that wait for their operands; the values
that are ready stand on another. A visit puts the node onto the stack of work below the trees of its
operands, so the first operand comes first and the node after all of them.

Whatever the two stacks hold, the work on them amounts to a listing that is to be run on the values
(`Computation.ends`): a tree that is to be visited stands for its own listing, and a node that waits
for one item. So the walk computes what the recursion computes. The faults that speak of the stacks,
an operand or an argument that is missing and values that are left over, are met in no tree at all.
-/

namespace Reckon

/-- A listing is run by its first item and then by the rest. -/
theorem Listing.run_cons {α : Type} (m : Meaning α) (i : Item) (l : Listing) (stack : List α) :
    run m (i :: l) stack = (step m i stack).bind (run m l) := by
  rw [run]
  cases step m i stack <;> rfl

/-! ## Work and values -/

/-- A piece of work: a tree to be visited, or an operator or a call whose operands come first. -/
inductive Task
  | visit (e : Expr)
  | op (o : Operator)
  | call (f : Builtin) (count : Nat)

namespace Task

/-- The listing that a piece of work stands for. -/
def items : Task → Listing
  | visit e => e.items
  | op o => [.op o]
  | call f n => [.call f n]

/-- The number of rounds that a piece of work takes at most: each node is visited, and again applied
if it has waited for operands. -/
def cost : Task → Nat
  | visit e => 2 * e.items.length
  | op _ => 1
  | call _ _ => 1

/-- The number of rounds that some pieces of work take at most. -/
def costOfAll : List Task → Nat
  | [] => 0
  | t :: todo => t.cost + costOfAll todo

theorem cost_pos (t : Task) : 0 < t.cost := by
  cases t with
  | visit e =>
      have := e.items_length_pos
      simp only [cost]
      omega
  | op o => exact Nat.one_pos
  | call f n => exact Nat.one_pos

theorem eq_nil_of_costOfAll {todo : List Task} (h : costOfAll todo = 0) : todo = [] := by
  cases todo with
  | nil => rfl
  | cons t todo =>
      have := t.cost_pos
      rw [costOfAll] at h
      omega

theorem items_visits (args : List Expr) :
    (args.map visit).flatMap items = Expr.itemsOfAll args := by
  induction args with
  | nil => rfl
  | cons a args ih =>
      rw [List.map_cons, List.flatMap_cons, ih, Expr.itemsOfAll]
      rfl

theorem cost_visits (args : List Expr) (todo : List Task) :
    costOfAll (args.map visit ++ todo)
      = 2 * (Expr.itemsOfAll args).length + costOfAll todo := by
  induction args with
  | nil => simp [Expr.itemsOfAll]
  | cons a args ih =>
      rw [List.map_cons, List.cons_append, costOfAll, ih, cost, Expr.itemsOfAll,
        List.length_append]
      omega

end Task

/-- A computation on its way: the work that is left, and the values that are ready. -/
structure Computation where
  todo : List Task
  values : List Float

namespace Computation

/-- A tree to be visited, and no values. -/
def start (e : Expr) : Computation := ⟨[.visit e], []⟩

/-- Looks at a tree. A literal is a value, and any other node waits until its operands have been
visited, the first one first. -/
def visit : Expr → List Task → List Float → Except Fault Computation
  | .num v, todo, values => .ok ⟨todo, v :: values⟩
  | .var x, _, _ => .error (.unboundName x)
  | .neg e, todo, values => .ok ⟨.visit e :: .op .neg :: todo, values⟩
  | .bin op a b, todo, values => .ok ⟨.visit a :: .visit b :: .op (.bin op) :: todo, values⟩
  | .call f args, todo, values => .ok ⟨args.map .visit ++ .call f args.length :: todo, values⟩

/-- One round: the piece of work on top is done. An operator or a call takes its operands off the
values and puts its own value there. -/
def round : Computation → Except Fault Computation
  | ⟨[], values⟩ => .ok ⟨[], values⟩
  | ⟨.visit e :: todo, values⟩ => visit e todo values
  | ⟨.op o :: todo, values⟩ => (Listing.step Expr.numbers (.op o) values).map (⟨todo, ·⟩)
  | ⟨.call f n :: todo, values⟩ => (Listing.step Expr.numbers (.call f n) values).map (⟨todo, ·⟩)

/-- The one value that a computation leaves. -/
def result (c : Computation) : Except Fault Float :=
  match c.values with
  | [v] => .ok v
  | _ => .error .notOneValue

/-- The number of rounds that a computation takes at most. -/
def cost (c : Computation) : Nat := Task.costOfAll c.todo

/-- The ending of a computation: what is left to do is a listing, to be run on the values that are
ready. -/
def ending (c : Computation) : Except Fault Computation :=
  (Listing.run Expr.numbers (c.todo.flatMap Task.items) c.values).map (⟨[], ·⟩)

/-- A visit leaves the listing of the tree to be run. -/
theorem ending_visit (e : Expr) (todo : List Task) (values : List Float) :
    (visit e todo values).bind ending = ending ⟨.visit e :: todo, values⟩ := by
  cases e with
  | num v => rfl
  | var x => rfl
  | neg e =>
      simp only [visit, Except.bind, ending, List.flatMap_cons, Task.items, Expr.items,
        List.append_assoc]
  | bin op a b =>
      simp only [visit, Except.bind, ending, List.flatMap_cons, Task.items, Expr.items,
        List.append_assoc]
  | call f args =>
      simp only [visit, Except.bind, ending, List.flatMap_cons, List.flatMap_append,
        Task.items_visits, Task.items, Expr.items, List.append_assoc]

theorem cost_visit_lt {e : Expr} {todo : List Task} {values : List Float} {next : Computation}
    (h : visit e todo values = .ok next) : next.cost < cost ⟨.visit e :: todo, values⟩ := by
  cases e with
  | num v =>
      obtain rfl := Except.ok.inj h
      simp [cost, Task.costOfAll, Task.cost, Expr.items]
  | var x => cases h
  | neg e =>
      obtain rfl := Except.ok.inj h
      simp only [cost, Task.costOfAll, Task.cost, Expr.items, List.length_append,
        List.length_singleton]
      omega
  | bin op a b =>
      obtain rfl := Except.ok.inj h
      simp only [cost, Task.costOfAll, Task.cost, Expr.items, List.length_append,
        List.length_singleton]
      omega
  | call f args =>
      obtain rfl := Except.ok.inj h
      simp only [cost, Task.cost_visits, Task.costOfAll, Task.cost, Expr.items,
        List.length_append, List.length_singleton]
      omega

/-- What is applied only leaves the stack of work. -/
theorem todo_of_step {i : Item} {todo : List Task} {values : List Float} {next : Computation}
    (h : (Listing.step Expr.numbers i values).map (Computation.mk todo) = .ok next) :
    next.todo = todo := by
  cases hstep : Listing.step Expr.numbers i values with
  | error fault =>
      rw [hstep] at h
      cases h
  | ok values =>
      rw [hstep] at h
      cases h
      rfl

/-- **The walk.** A round changes nothing of the listing that is left to be run, and takes something
off the rounds that are left. -/
theorem ends : Loop.Ends round cost ending where
  keeps c := by
    match c with
    | ⟨[], values⟩ => rfl
    | ⟨.visit e :: todo, values⟩ => exact ending_visit e todo values
    | ⟨.op o :: todo, values⟩ =>
        rw [round, ending, List.flatMap_cons, Task.items, List.singleton_append, Listing.run_cons]
        cases Listing.step Expr.numbers (.op o) values <;> rfl
    | ⟨.call f n :: todo, values⟩ =>
        rw [round, ending, List.flatMap_cons, Task.items, List.singleton_append, Listing.run_cons]
        cases Listing.step Expr.numbers (.call f n) values <;> rfl
  falls c next hcost hround := by
    match c, hround with
    | ⟨.visit e :: todo, values⟩, hround => exact cost_visit_lt hround
    | ⟨.op o :: todo, values⟩, hround =>
        rw [cost, todo_of_step hround, cost, Task.costOfAll, Task.cost]
        omega
    | ⟨.call f n :: todo, values⟩, hround =>
        rw [cost, todo_of_step hround, cost, Task.costOfAll, Task.cost]
        omega
  stays c hcost := by
    obtain ⟨todo, values⟩ := c
    obtain rfl := Task.eq_nil_of_costOfAll hcost
    rfl
  ended c hcost := by
    obtain ⟨todo, values⟩ := c
    obtain rfl := Task.eq_nil_of_costOfAll hcost
    rfl

/-- A computation ends with the value of its tree, alone on the stack. -/
theorem ending_start (e : Expr) : ending (start e) = e.eval.map fun v => ⟨[], [v]⟩ := by
  have hrun := Expr.run_items (m := Expr.numbers) e [] []
  rw [List.append_nil, Expr.fold_numbers] at hrun
  rw [ending, start, List.flatMap_singleton, Task.items, hrun]
  cases e.eval <;> rfl

/-- The walk of a tree meets no fault but the tree's. -/
theorem eval_of_after {e : Expr} {n : Nat} {fault : Fault}
    (h : Loop.after round n (start e) = .error fault) : e.eval = .error fault := by
  have hending := ends.ending_of_after h
  rw [ending_start] at hending
  cases he : e.eval with
  | ok v =>
      rw [he] at hending
      cases hending
  | error c =>
      rw [he] at hending
      cases hending
      rfl

end Computation

/-- **Two stacks compute what the recursion computes.** The walk has ended after two rounds for each
node of the tree at most, with nothing left to do and one value, or with the fault of the tree: the
first in its listing, where a call stands behind its arguments. At no time does it miss an operand
or an argument or have values left over, nor does a function look for an argument that it has not
been given. -/
theorem Expr.value_on_two_stacks (e : Expr) :
    (Loop.after Computation.round (2 * e.items.length) (.start e)
        = e.eval.map fun v => ⟨[], [v]⟩)
    ∧ (Loop.after Computation.round (2 * e.items.length) (.start e)).bind Computation.result
        = e.value
    ∧ e.value = e.eval
    ∧ (∀ fault, e.eval = .error fault ↔ e.items.findSome? Item.fault? = some fault)
    ∧ (∀ n fault, Loop.after Computation.round n (.start e) = .error fault →
        e.eval = .error fault ∧ fault ≠ .missingOperand ∧ (∀ f, fault ≠ .missingArguments f)
          ∧ fault ≠ .notOneValue)
    ∧ ∀ (α : Type) [Number.Elementary α] (f : Builtin) (args : List α),
        f.applyByPosition args = (f.apply args).map some := by
  have hcost : (Computation.start e).cost ≤ 2 * e.items.length := by
    simp [Computation.cost, Computation.start, Task.costOfAll, Task.cost]
  have hafter := Computation.ends.after_of_cost_le hcost
  rw [Computation.ending_start] at hafter
  refine ⟨hafter, ?_, e.value_eq_eval, fun fault => eval_eq_error_iff, fun n fault hfault => ?_,
    fun α _ => Builtin.applyByPosition_eq⟩
  · rw [hafter, e.value_eq_eval]
    cases e.eval <;> rfl
  · have heval := Computation.eval_of_after hfault
    refine ⟨heval, ?_⟩
    rcases fault_cases heval with ⟨x, rfl⟩ | ⟨f, k, rfl⟩
    · exact ⟨nofun, nofun, nofun⟩
    · exact ⟨nofun, nofun, nofun⟩

/-- The inner call is refused before the name behind it is met, and the outer one is not reached. -/
example : (Expr.call .sqrt [.num 1, .bin .add (.call .abs [.num 2, .num 3]) (.var "x")]).eval
    = .error (.arity .abs 2) :=
  rfl

end Reckon
