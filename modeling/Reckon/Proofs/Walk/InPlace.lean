import Reckon.Proofs.Walk

/-!
# Giving names their values in place

`Expr.subst` builds a new tree. The names of a tree can also be replaced where they stand: a stack
holds the places that are still to be looked at, and a round takes the top one off, writes a number
there if it finds a name that has one, and otherwise puts the places below it onto the stack.

The tree changes while the places wait, so a place must still lead where it led when it was put on
the stack. It does, because all that is written while it waits is written beside it: what a round
does at a place is done to the tree at that place and nowhere else (`Expr.put_append`). So a place
is taken off with its tree rewritten, and the rest of the tree and of the stack is what it was
(`Rewriting.takesOff`); no place that is looked at has come to lead nowhere.
-/

namespace Reckon

namespace Expr

/-! ## Places in a tree -/

/-- Where a tree stands in another: the way down to it, by the positions of the operands. -/
abbrev Place := List Nat

/-- The trees below a node, from left to right. -/
def operands : Expr → List Expr
  | num _ | var _ => []
  | neg e => [e]
  | bin _ a b => [a, b]
  | call _ args => args

/-- The same node over as many other trees. -/
def withOperands : Expr → List Expr → Expr
  | neg _, [e] => neg e
  | bin op _ _, [a, b] => bin op a b
  | call f _, args => call f args
  | e, _ => e

/-- The tree at a place. -/
def at? : Expr → Place → Option Expr
  | e, [] => some e
  | e, i :: p => e.operands[i]?.bind fun a => a.at? p

/-- A tree with another one written at a place. -/
def put : Expr → Place → Expr → Expr
  | _, [], new => new
  | e, i :: p, new =>
    match e.operands[i]? with
    | some a => e.withOperands (e.operands.set i (a.put p new))
    | none => e

theorem operands_withOperands {e : Expr} {as : List Expr} (h : as.length = e.operands.length) :
    (e.withOperands as).operands = as := by
  match e, as, h with
  | num v, [], _ => rfl
  | var x, [], _ => rfl
  | neg e, [a], _ => rfl
  | bin op b c, [a, d], _ => rfl
  | call f args, as, _ => rfl

theorem withOperands_operands (e : Expr) : e.withOperands e.operands = e := by
  cases e <;> rfl

theorem withOperands_withOperands {e : Expr} {as bs : List Expr}
    (ha : as.length = e.operands.length) (hb : bs.length = e.operands.length) :
    (e.withOperands as).withOperands bs = e.withOperands bs := by
  match e, as, bs, ha, hb with
  | num v, [], [], _, _ => rfl
  | var x, [], [], _, _ => rfl
  | neg e, [a], [b], _, _ => rfl
  | bin op c d, [a, a'], [b, b'], _, _ => rfl
  | call f args, as, bs, _, _ => rfl

/-! ## Reading and writing -/

theorem put_cons {e a : Expr} {i : Nat} (h : e.operands[i]? = some a) (p : Place) (new : Expr) :
    e.put (i :: p) new = e.withOperands (e.operands.set i (a.put p new)) := by
  rw [put, h]

/-- Below a node there is a place for each of its operands. -/
theorem exists_operand {e a : Expr} {i : Nat} {p : Place} (h : e.at? (i :: p) = some a) :
    ∃ b, e.operands[i]? = some b ∧ b.at? p = some a :=
  Option.bind_eq_some_iff.mp h

theorem at?_append {t e : Expr} {p : Place} (h : t.at? p = some e) (q : Place) :
    t.at? (p ++ q) = e.at? q := by
  induction p generalizing t with
  | nil =>
      cases h
      rfl
  | cons i p ih =>
      obtain ⟨a, hi, ha⟩ := exists_operand h
      rw [List.cons_append, at?, hi]
      exact ih ha

/-- What is written at a place is read there. -/
theorem at?_put {t e : Expr} {p : Place} (h : t.at? p = some e) (new : Expr) :
    (t.put p new).at? p = some new := by
  induction p generalizing t with
  | nil => rfl
  | cons i p ih =>
      obtain ⟨a, hi, ha⟩ := exists_operand h
      have hlt : i < t.operands.length := (List.getElem?_eq_some_iff.mp hi).1
      rw [put_cons hi, at?, operands_withOperands List.length_set, List.getElem?_set_self hlt]
      exact ih ha

/-- To write what stands there changes nothing. -/
theorem put_self {t e : Expr} {p : Place} (h : t.at? p = some e) : t.put p e = t := by
  induction p generalizing t with
  | nil =>
      cases h
      rfl
  | cons i p ih =>
      obtain ⟨a, hi, ha⟩ := exists_operand h
      obtain ⟨hlt, hget⟩ := List.getElem?_eq_some_iff.mp hi
      rw [put_cons hi, ih ha, ← hget, List.set_getElem_self hlt, withOperands_operands]

/-- Of two trees written at a place the second one stays. -/
theorem put_put {t e : Expr} {p : Place} (h : t.at? p = some e) (new newer : Expr) :
    (t.put p new).put p newer = t.put p newer := by
  induction p generalizing t with
  | nil => rfl
  | cons i p ih =>
      obtain ⟨a, hi, ha⟩ := exists_operand h
      have hlt : i < t.operands.length := (List.getElem?_eq_some_iff.mp hi).1
      have hnew : (t.put (i :: p) new).operands[i]? = some (a.put p new) := by
        rw [put_cons hi, operands_withOperands List.length_set, List.getElem?_set_self hlt]
      rw [put_cons hnew, put_cons hi, put_cons hi, operands_withOperands List.length_set,
        withOperands_withOperands List.length_set (by rw [List.length_set, List.length_set]),
        List.set_set, ih ha]

/-- **Writing stays where it is done.** To write below a place is to write in the tree at that
place. -/
theorem put_append {t e : Expr} {p : Place} (h : t.at? p = some e) (q : Place) (new : Expr) :
    t.put (p ++ q) new = t.put p (e.put q new) := by
  induction p generalizing t with
  | nil =>
      cases h
      rfl
  | cons i p ih =>
      obtain ⟨a, hi, ha⟩ := exists_operand h
      rw [List.cons_append, put_cons hi, put_cons hi, ih ha]

section

variable {t e : Expr} {p : Place} {front back : List Expr}

theorem length_around (a : Expr) (hsize : front.length + back.length + 1 = e.operands.length) :
    (front ++ a :: back).length = e.operands.length := by
  rw [List.length_append, List.length_cons, ← hsize, Nat.add_assoc]

theorem operands_around (a : Expr) (hsize : front.length + back.length + 1 = e.operands.length) :
    (e.withOperands (front ++ a :: back)).operands = front ++ a :: back :=
  operands_withOperands (length_around a hsize)

theorem operand_between (a : Expr) (hsize : front.length + back.length + 1 = e.operands.length) :
    (e.withOperands (front ++ a :: back)).operands[front.length]? = some a := by
  rw [operands_around a hsize, List.getElem?_append_right (Nat.le_refl _), Nat.sub_self]
  rfl

/-- Where the operands of a node have been written, each of them is found. -/
theorem at?_put_operand (hp : t.at? p = some e) (a : Expr)
    (hsize : front.length + back.length + 1 = e.operands.length) :
    (t.put p (e.withOperands (front ++ a :: back))).at? (p ++ [front.length]) = some a := by
  rw [at?_append (at?_put hp _), at?, operand_between a hsize]
  rfl

/-- One of the operands of a node can be written anew. -/
theorem put_put_operand (hp : t.at? p = some e) (a new : Expr)
    (hsize : front.length + back.length + 1 = e.operands.length) :
    (t.put p (e.withOperands (front ++ a :: back))).put (p ++ [front.length]) new
      = t.put p (e.withOperands (front ++ new :: back)) := by
  have hset : (front ++ a :: back).set front.length new = front ++ new :: back := by
    rw [List.set_append_right _ _ (Nat.le_refl _), Nat.sub_self]
    rfl
  rw [put_append (at?_put hp _), put_put hp, put_cons (operand_between a hsize), put,
    operands_around a hsize, hset,
    withOperands_withOperands (length_around a hsize) (length_around new hsize)]

end

/-! ## Operands and their rewriting -/

/-- The number that a tree is replaced by, if it is a name that has one. -/
def replaced? (value? : String → Option Float) : Expr → Option Float
  | var x => value? x
  | _ => none

theorem leaf_of_replaced? {value? : String → Option Float} {e : Expr} {v : Float}
    (h : e.replaced? value? = some v) : e.items.length = 1 ∧ e.subst value? = num v := by
  match e, h with
  | var x, h => exact ⟨rfl, by rw [subst, show value? x = some v from h, Option.elim]⟩

theorem subst_of_kept {value? : String → Option Float} {e : Expr}
    (h : e.replaced? value? = none) :
    e.subst value? = e.withOperands (e.operands.map (subst value?)) := by
  match e, h with
  | num v, _ => rfl
  | var x, h => rw [subst, show value? x = none from h]; rfl
  | neg e, _ => rfl
  | bin op a b, _ => rfl
  | call f args, _ => rw [subst, substAll_eq_map]; rfl

theorem length_items (e : Expr) : e.items.length = (itemsOfAll e.operands).length + 1 := by
  cases e <;> simp [items, itemsOfAll, operands, Nat.add_assoc]

theorem length_itemsOfAll_reverse (es : List Expr) :
    (itemsOfAll es.reverse).length = (itemsOfAll es).length := by
  induction es with
  | nil => rfl
  | cons e es ih =>
      rw [List.reverse_cons, length_itemsOfAll_append, ih, itemsOfAll, itemsOfAll, itemsOfAll,
        List.append_nil, List.length_append]
      omega

/-- To prove something of all trees, prove it of each from its operands, whatever the node. -/
theorem operands_induction {motive : Expr → Prop}
    (node : ∀ e, (∀ a ∈ e.operands, motive a) → motive e) (e : Expr) : motive e := by
  induction e using Expr.induction with
  | num v => exact node _ nofun
  | var x => exact node _ nofun
  | neg e ih => exact node _ (by simpa [operands] using ih)
  | bin op a b iha ihb => exact node _ (by simpa [operands] using ⟨iha, ihb⟩)
  | call f args ih => exact node _ ih

end Expr

/-! ## The walk -/

/-- The places of the first operands of the node at a place, the last one first. -/
def placesBelow (p : Expr.Place) : Nat → List Expr.Place
  | 0 => []
  | n + 1 => (p ++ [n]) :: placesBelow p n

/-- A rewriting on its way: the tree as it is by now, and the places still to be looked at. -/
structure Rewriting where
  tree : Expr
  pending : List Expr.Place

namespace Rewriting

/-- The whole of a tree is to be looked at. -/
def start (e : Expr) : Rewriting := ⟨e, [[]]⟩

/-- One round: the place on top is taken off. A name there that has a number is replaced by it, and
otherwise the places below are put onto the stack, the last operand on top. A place that leads
nowhere would be a fault. -/
def round (value? : String → Option Float) : Rewriting → Except Expr.Place Rewriting
  | ⟨tree, []⟩ => .ok ⟨tree, []⟩
  | ⟨tree, p :: pending⟩ =>
    match tree.at? p with
    | none => .error p
    | some e =>
      match e.replaced? value? with
      | some v => .ok ⟨tree.put p (.num v), pending⟩
      | none => .ok ⟨tree, placesBelow p e.operands.length ++ pending⟩

variable {value? : String → Option Float}

theorem round_of_replaced? {tree e : Expr} {p : Expr.Place} {v : Float} (hp : tree.at? p = some e)
    (hv : e.replaced? value? = some v) (pending : List Expr.Place) :
    round value? ⟨tree, p :: pending⟩ = .ok ⟨tree.put p (.num v), pending⟩ := by
  simp only [round, hp, hv]

theorem round_of_kept {tree e : Expr} {p : Expr.Place} (hp : tree.at? p = some e)
    (hv : e.replaced? value? = none) (pending : List Expr.Place) :
    round value? ⟨tree, p :: pending⟩
      = .ok ⟨tree, placesBelow p e.operands.length ++ pending⟩ := by
  simp only [round, hp, hv]

/-- A place that leads to the tree `e` is taken off the stack in as many rounds as `e` has nodes.
The tree that stands there is then rewritten, and nothing else has changed. -/
def TakesOff (value? : String → Option Float) (e : Expr) : Prop :=
  ∀ tree p pending, tree.at? p = some e →
    Loop.after (round value?) e.items.length ⟨tree, p :: pending⟩
      = .ok ⟨tree.put p (e.subst value?), pending⟩

/-- The operands of a node are rewritten one after the other, the last one first: those before stand
as they were, those behind are done. -/
theorem after_operands {tree e : Expr} {p : Expr.Place} (hp : tree.at? p = some e)
    (front : List Expr) (hfront : ∀ a ∈ front, TakesOff value? a) (back : List Expr)
    (hlen : front.length + back.length = e.operands.length) (pending : List Expr.Place) :
    Loop.after (round value?) (Expr.itemsOfAll front).length
        ⟨tree.put p (e.withOperands (front.reverse ++ back)),
          placesBelow p front.length ++ pending⟩
      = .ok ⟨tree.put p (e.withOperands (front.reverse.map (Expr.subst value?) ++ back)),
          pending⟩ := by
  induction front generalizing back with
  | nil => rfl
  | cons a front ih =>
      have hsize : front.reverse.length + back.length + 1 = e.operands.length := by
        rw [List.length_reverse, ← hlen, List.length_cons]
        omega
      -- the operand on top stands where the front ends
      have hplace := Expr.at?_put_operand hp a hsize
      have hwrite := Expr.put_put_operand hp a (a.subst value?) hsize
      rw [List.length_reverse] at hplace hwrite
      have hfirst := hfront a (.head _) _ _ (placesBelow p front.length ++ pending) hplace
      have hnext := ih (fun b hb => hfront b (.tail _ hb)) (a.subst value? :: back)
        (by rw [List.length_cons] at hlen ⊢; omega)
      rw [hwrite] at hfirst
      rw [Expr.itemsOfAll, List.length_append, List.reverse_cons, List.append_assoc,
        List.singleton_append, List.length_cons, placesBelow, List.cons_append,
        Loop.after_add hfirst, hnext, List.map_append, List.append_assoc]
      rfl

/-- **What a place costs and what it leaves.** -/
theorem takesOff (value? : String → Option Float) (e : Expr) : TakesOff value? e := by
  induction e using Expr.operands_induction with
  | node e ih =>
  intro tree p pending hp
  cases hv : e.replaced? value? with
  | some v =>
      obtain ⟨hlen, hsubst⟩ := Expr.leaf_of_replaced? hv
      rw [hlen, Loop.after_succ (round_of_replaced? hp hv pending), hsubst]
      rfl
  | none =>
      have hall := after_operands hp e.operands.reverse
        (fun a ha => ih a (List.mem_reverse.mp ha)) [] (by simp) pending
      rw [Expr.length_itemsOfAll_reverse, List.reverse_reverse, List.append_nil, List.append_nil,
        Expr.withOperands_operands, Expr.put_self hp, List.length_reverse] at hall
      rw [e.length_items, Loop.after_succ (round_of_kept hp hv pending), hall,
        Expr.subst_of_kept hv]

/-- A tree is rewritten as a whole, and then there is nothing left to be looked at. -/
theorem after_start (value? : String → Option Float) (e : Expr) :
    Loop.after (round value?) e.items.length (start e) = .ok ⟨e.subst value?, []⟩ :=
  takesOff value? e e [] [] rfl

end Rewriting

end Reckon
