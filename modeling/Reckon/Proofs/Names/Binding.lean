import Reckon.Proofs.Walk.InPlace

/-!
# One binding after another

A tree is bound by a scope and then by the constants, and nothing forbids to bind it again. What two
bindings in a row do is said by one: a name takes the first number that it is offered
(`Expr.subst_subst`), as a number cannot be bound again. The order matters where both have a number
for the same name and the tree holds it, and nowhere else (`Expr.subst_eq_subst_iff`).

The bindings of a program are made in place, on a stack of places; `Rewriting.after_start` says that
they come to the same.
-/

namespace Reckon

namespace Expr

/-- A second binding finds the names that the first one has left. -/
theorem subst_subst (f g : String → Option Float) (e : Expr) :
    (e.subst f).subst g = e.subst fun x => (f x).or (g x) := by
  induction e using Expr.induction with
  | num v => rfl
  | var x =>
      simp only [subst]
      cases hx : f x with
      | none => rw [Option.elim, subst, Option.none_or]
      | some v => rfl
  | neg e ih => simp only [subst, ih]
  | bin op a b iha ihb => simp only [subst, iha, ihb]
  | call fn args ih =>
      simp only [subst, substAll_eq_map, List.map_map]
      exact congrArg (call fn) (List.map_congr_left ih)

/-- Two bindings make the same of a tree exactly if they say the same of the names in it. -/
theorem subst_eq_subst_iff {f g : String → Option Float} {e : Expr} :
    e.subst f = e.subst g ↔ ∀ x ∈ e.names, f x = g x := by
  induction e using Expr.induction with
  | num v =>
      rw [names_num]
      exact iff_of_true rfl (List.forall_mem_nil _)
  | var x =>
      rw [names_var, List.forall_mem_singleton, subst, subst]
      cases f x with
      | none =>
          cases g x with
          | none => exact iff_of_true rfl rfl
          | some w => simp only [Option.elim, reduceCtorEq]
      | some v =>
          cases g x with
          | none => simp only [Option.elim, reduceCtorEq]
          | some w => rw [Option.elim, Option.elim, num.injEq, Option.some.injEq]
  | neg e ih => rw [subst, subst, neg.injEq, ih, names_neg]
  | bin op a b iha ihb =>
      rw [subst, subst, bin.injEq, iha, ihb, names_bin, List.forall_mem_append]
      exact and_iff_right rfl
  | call fn args ih =>
      rw [subst, subst, call.injEq, substAll_eq_map, substAll_eq_map, List.map_inj_left, names_call,
        List.forall_mem_flatMap]
      exact (and_iff_right rfl).trans (forall₂_congr ih)

end Expr

namespace Scope

/-- The bindings of a scope laid over another scope: where both bind a name, those of the first
hold. -/
def overlay (p q : Scope) : Scope := p.bindings.foldl (fun s b => s.insert b.1 b.2) q

theorem find?_foldl_insert {l : List (String × Float)} (h : l.Pairwise (fun a b => a.1 < b.1))
    (q : Scope) (x : String) :
    (l.foldl (fun s b => s.insert b.1 b.2) q).find? x = (l.lookup x).or (q.find? x) := by
  induction l generalizing q with
  | nil => rfl
  | cons a l ih =>
      obtain ⟨ha, hl⟩ := List.pairwise_cons.mp h
      rw [List.foldl_cons, ih hl, find?_insert, lookup_cons_eq_ite]
      by_cases hx : x = a.1
      · -- no later binding has the name
        subst hx
        rw [lookup_eq_none_of_lt ha, if_pos rfl, if_pos rfl, Option.none_or, Option.some_or]
      · rw [if_neg hx, if_neg hx]

@[simp] theorem find?_overlay (p q : Scope) (x : String) :
    (p.overlay q).find? x = (p.find? x).or (q.find? x) :=
  find?_foldl_insert p.sorted q x

end Scope

/-- **The laws of binding.** The rewriting in place looks at each node once and makes of the tree
what the recursion makes of it. So a scope binds all that it can at once; two scopes in a row bind
as one, the first laid over the second; the scope and then the constants bind as one look-up that
asks the scope first; and asking the constants first makes another tree exactly if the tree holds
the name of a constant to which the scope gives another number. -/
theorem Expr.binding_laws (e : Expr) :
    (∀ value?, Loop.after (Rewriting.round value?) e.items.length (.start e)
        = .ok ⟨e.subst value?, []⟩
      ∧ e.bind value? = e.subst value?)
    ∧ e.bind Scope.empty.find? = e
    ∧ ∀ p q : Scope,
      (e.bind p.find?).bind p.find? = e.bind p.find?
      ∧ (e.bind p.find?).bind q.find? = e.bind (p.overlay q).find?
      ∧ (e.bind p.find?).bind constant? = e.bind (fun x => (p.find? x).or (constant? x))
      ∧ ((e.bind constant?).bind p.find? = (e.bind p.find?).bind constant?
        ↔ ∀ x ∈ e.names, ∀ v w, p.find? x = some v → constant? x = some w → v = w) := by
  refine ⟨fun value? => ⟨Rewriting.after_start value? e, e.bind_eq_subst value?⟩, ?_⟩
  simp only [bind_eq_subst, subst_subst, true_and]
  refine ⟨subst_none e, fun p q => ⟨?_, ?_, ?_⟩⟩
  · rw [subst_eq_subst_iff]
    exact fun x _ => Option.or_self
  · rw [subst_eq_subst_iff]
    exact fun x _ => (Scope.find?_overlay p q x).symm
  · rw [subst_eq_subst_iff]
    refine forall₂_congr fun x _ => ?_
    cases p.find? x with
    | none => simp
    | some v =>
        cases constant? x with
        | none => simp
        | some w => simp [eq_comm]

end Reckon
