import Reckon.Listing

/-!
# Expression trees

What an expression is, whatever way it is written: numbers and names joined by operators and calls.
A tree is listed operands first (`items`), and a listing is read back on a stack of trees
(`ofListing`).

Trees may be as deep as a text is long, so nothing that runs descends into one by recursion:
`listing` keeps the trees still to be listed on a worklist, and every other walk is a run of that
listing. The recursive definitions say what the walks compute, and `listing_eq_items` and
`result_listing` carry each of them over.
-/

namespace Reckon

/-- An expression. -/
inductive Expr
  | num (value : Float)
  | var (name : String)
  | neg (e : Expr)
  | bin (op : BinOp) (a b : Expr)
  | call (f : Builtin) (args : List Expr)

namespace Expr

/-- To prove something of all trees, prove it of each node from its operands. -/
theorem induction {motive : Expr → Prop} (num : ∀ v, motive (num v)) (var : ∀ x, motive (var x))
    (neg : ∀ e, motive e → motive (neg e))
    (bin : ∀ op a b, motive a → motive b → motive (bin op a b))
    (call : ∀ f args, (∀ a ∈ args, motive a) → motive (call f args)) (e : Expr) : motive e :=
  @Expr.rec motive (fun args => ∀ a ∈ args, motive a) num var neg bin call (by simp)
    (fun a args ha hargs => by simpa using ⟨ha, hargs⟩) e

/-! ## Listing a tree -/

mutual

/-- The listing of a tree: operands from left to right, then the node. -/
def items : Expr → Listing
  | num v => [.num v]
  | var x => [.var x]
  | neg e => e.items ++ [.op .neg]
  | bin op a b => a.items ++ b.items ++ [.op (.bin op)]
  | call f args => itemsOfAll args ++ [.call f args.length]

/-- The listings of some trees in a row. -/
def itemsOfAll : List Expr → Listing
  | [] => []
  | a :: args => a.items ++ itemsOfAll args

end

theorem sizeOf_append (as bs : List Expr) : sizeOf (as ++ bs) + 1 = sizeOf as + sizeOf bs := by
  induction as with
  | nil => simp; omega
  | cons a as ih => simp only [List.cons_append, List.cons.sizeOf_spec]; omega

theorem sizeOf_reverse (as : List Expr) : sizeOf as.reverse = sizeOf as := by
  induction as with
  | nil => rfl
  | cons a as ih =>
    have := sizeOf_append as.reverse [a]
    simp only [List.reverse_cons, List.cons.sizeOf_spec, List.nil.sizeOf_spec] at this ⊢
    omega

/-- Lists the trees of a worklist before `out`: of each tree the node first, and the trees below
it next, the last one on top. -/
def listFrom : List Expr → Listing → Listing
  | [], out => out
  | num v :: todo, out => listFrom todo (.num v :: out)
  | var x :: todo, out => listFrom todo (.var x :: out)
  | neg e :: todo, out => listFrom (e :: todo) (.op .neg :: out)
  | bin op a b :: todo, out => listFrom (b :: a :: todo) (.op (.bin op) :: out)
  | call f args :: todo, out => listFrom (args.reverse ++ todo) (.call f args.length :: out)
termination_by todo => sizeOf todo
decreasing_by
  all_goals simp only [List.cons.sizeOf_spec, num.sizeOf_spec, var.sizeOf_spec, neg.sizeOf_spec,
    bin.sizeOf_spec, call.sizeOf_spec, List.unattach_reverse, List.unattach_attach]
  · omega
  · omega
  · omega
  · have : sizeOf op = 1 := by cases op <;> rfl
    omega
  · have := sizeOf_append args.reverse todo
    have := sizeOf_reverse args
    omega

/-- The listing of a tree. -/
def listing (e : Expr) : Listing := listFrom [e] []

theorem listFrom_reverse_append {args : List Expr}
    (h : ∀ a ∈ args, ∀ todo out, listFrom (a :: todo) out = listFrom todo (a.items ++ out))
    (todo : List Expr) (out : Listing) :
    listFrom (args.reverse ++ todo) out = listFrom todo (itemsOfAll args ++ out) := by
  induction args generalizing todo with
  | nil => rfl
  | cons a args ih =>
    have := ih (fun b hb => h b (.tail _ hb)) (a :: todo)
    simp [itemsOfAll, this, h a (.head _)]

theorem listFrom_cons (e : Expr) : ∀ todo out,
    listFrom (e :: todo) out = listFrom todo (e.items ++ out) := by
  induction e using Expr.induction with
  | num v => intro todo out; simp [listFrom, items]
  | var x => intro todo out; simp [listFrom, items]
  | neg e ih => intro todo out; simp [listFrom, items, ih]
  | bin op a b iha ihb => intro todo out; simp [listFrom, items, iha, ihb]
  | call f args ih => intro todo out; simp [listFrom, items, listFrom_reverse_append ih]

theorem listing_eq_items (e : Expr) : e.listing = e.items := by
  simp [listing, listFrom_cons, listFrom]

/-! ## Running a listing of a tree

`fold` is the meaning of a tree by recursion. A run of the listing pushes exactly that value. -/

open Listing (Meaning run step popArguments_append)

mutual

/-- The meaning of a tree. -/
def fold {α : Type} (m : Meaning α) : Expr → Except Fault α
  | num v => .ok (m.num v)
  | var x => m.var x
  | neg e => (e.fold m).map m.neg
  | bin op a b => (a.fold m).bind fun x => (b.fold m).map fun y => m.bin op x y
  | call f args => (foldAll m args).bind (m.call f)

/-- The meanings of some trees, up to the first that has none. -/
def foldAll {α : Type} (m : Meaning α) : List Expr → Except Fault (List α)
  | [] => .ok []
  | a :: args => (a.fold m).bind fun x => (foldAll m args).map (x :: ·)

end

section

variable {α : Type} {m : Meaning α}

theorem length_of_foldAll {args : List Expr} {xs : List α} (h : foldAll m args = .ok xs) :
    xs.length = args.length := by
  induction args generalizing xs with
  | nil => cases h; rfl
  | cons a args ih =>
    unfold foldAll at h
    cases ha : a.fold m with
    | error e => rw [ha] at h; cases h
    | ok x =>
      cases hr : foldAll m args with
      | error e => rw [ha, hr] at h; cases h
      | ok ys =>
        rw [ha, hr] at h
        cases h
        simp [ih hr]

theorem run_itemsOfAll {args : List Expr}
    (h : ∀ a ∈ args, ∀ k stack, run m (a.items ++ k) stack =
      (a.fold m).bind fun x => run m k (x :: stack)) (k : Listing) (stack : List α) :
    run m (itemsOfAll args ++ k) stack =
      (foldAll m args).bind fun xs => run m k (xs.reverse ++ stack) := by
  induction args generalizing stack with
  | nil => rfl
  | cons a args ih =>
    rw [itemsOfAll, List.append_assoc, h a (.head _), foldAll]
    cases a.fold m with
    | error e => rfl
    | ok x =>
      simp only [Except.bind]
      rw [ih fun b hb => h b (.tail _ hb)]
      cases foldAll m args with
      | error e => rfl
      | ok xs => simp [Except.bind, Except.map]

theorem run_items (e : Expr) : ∀ k stack,
    run m (e.items ++ k) stack = (e.fold m).bind fun x => run m k (x :: stack) := by
  induction e using Expr.induction with
  | num v => intro k stack; rfl
  | var x =>
    intro k stack
    simp only [items, List.singleton_append, run, step, fold]
    cases m.var x <;> rfl
  | neg e ih =>
    intro k stack
    rw [items, List.append_assoc, ih, fold]
    cases e.fold m <;> rfl
  | bin op a b iha ihb =>
    intro k stack
    rw [items, List.append_assoc, List.append_assoc, iha, fold]
    cases a.fold m with
    | error e => rfl
    | ok x =>
      simp only [Except.bind]
      rw [ihb]
      cases b.fold m <;> rfl
  | call f args ih =>
    intro k stack
    rw [items, List.append_assoc, run_itemsOfAll ih, fold]
    cases hx : foldAll m args with
    | error e => rfl
    | ok xs =>
      have hl : args.length = xs.reverse.length := by simp [length_of_foldAll hx]
      simp only [Except.bind, List.singleton_append, run, step, hl, popArguments_append,
        List.reverse_reverse, List.append_nil]
      cases m.call f xs <;> rfl

/-- A listing of a tree means what the tree means. -/
theorem result_listing (e : Expr) : Listing.result m e.listing = e.fold m := by
  have := run_items (m := m) e [] []
  rw [List.append_nil] at this
  rw [listing_eq_items, Listing.result, this]
  cases e.fold m <;> rfl

end

/-! ## Reading a listing back -/

/-- The items of a listing as nodes of a tree. -/
def nodes : Meaning Expr where
  num := num
  var x := .ok (var x)
  neg := neg
  bin := bin
  call f args := .ok (call f args)

/-- The tree of a listing. -/
def ofListing (l : Listing) : Except Fault Expr := Listing.result nodes l

theorem foldAll_of_forall {args : List Expr} {m : Meaning Expr} {g : Expr → Expr}
    (h : ∀ a ∈ args, a.fold m = .ok (g a)) : foldAll m args = .ok (args.map g) := by
  induction args with
  | nil => rfl
  | cons a args ih =>
    rw [foldAll, h a (.head _), ih fun b hb => h b (.tail _ hb)]
    rfl

theorem fold_nodes (e : Expr) : e.fold nodes = .ok e := by
  induction e using Expr.induction with
  | num v => rfl
  | var x => rfl
  | neg e ih => rw [fold, ih]; rfl
  | bin op a b iha ihb => rw [fold, iha, ihb]; rfl
  | call f args ih => rw [fold, foldAll_of_forall (g := id) ih, List.map_id]; rfl

/-- A tree is read back from its listing. -/
theorem ofListing_listing (e : Expr) : ofListing e.listing = .ok e := by
  rw [ofListing, result_listing, fold_nodes]

theorem listing_injective {a b : Expr} (h : a.listing = b.listing) : a = b :=
  Except.ok.inj <| by rw [← ofListing_listing a, ← ofListing_listing b, h]

instance : DecidableEq Expr := fun a b =>
  decidable_of_iff (a.listing = b.listing) ⟨listing_injective, congrArg listing⟩

end Expr

end Reckon
