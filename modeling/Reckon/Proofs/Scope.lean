import Mathlib.Data.List.Nodup
import Reckon.Scope

/-!
# Scopes in any order

The order in which a scope is gone through says nothing of its bindings, and any order can come up
(`exists_visits_eq`). Whether a scope is finite does not depend on it. Which binding is found first
in a scope that is not finite does: it can be any of those that are not finite
(`exists_firstNonFinite?_eq`), and it is always the same one only if there are no two of them
(`firstNonFinite?_inOrder`).
-/

namespace Reckon.Scope

variable {s : Scope} {b : String × Float}

@[simp] theorem find?_inOrder (s : Scope) (order : Order) (x : String) :
    (s.inOrder order).find? x = s.find? x := rfl

/-! ## The bindings in their order -/

theorem Order.place_perm (order : Order) (b : String × Float) (l : List (String × Float)) :
    (order.place b l).Perm (b :: l) := by
  induction l with
  | nil => exact .refl _
  | cons c l ih =>
      rw [place]
      split
      · exact .refl _
      · exact (ih.cons c).trans (.swap b c l)

theorem Order.pairwise_place (order : Order) (b : String × Float) {l : List (String × Float)}
    (h : l.Pairwise fun c d => order c.1 ≤ order d.1) :
    (order.place b l).Pairwise fun c d => order c.1 ≤ order d.1 := by
  induction l with
  | nil => exact List.pairwise_singleton _ b
  | cons c l ih =>
      obtain ⟨hc, hl⟩ := List.pairwise_cons.mp h
      rw [place]
      split
      · rename_i hbc
        refine List.pairwise_cons.mpr ⟨fun d hd => ?_, h⟩
        rcases List.mem_cons.mp hd with rfl | hd
        · exact hbc
        · exact Nat.le_trans hbc (hc d hd)
      · rename_i hcb
        refine List.pairwise_cons.mpr ⟨fun d hd => ?_, ih hl⟩
        rcases List.mem_cons.mp ((order.place_perm b l).mem_iff.mp hd) with rfl | hd
        · exact Nat.le_of_not_le hcb
        · exact hc d hd

/-- Each binding is gone through once. -/
theorem visits_perm (s : Scope) : s.visits.Perm s.bindings := by
  unfold visits
  induction s.bindings with
  | nil => exact .refl _
  | cons b l ih => exact (s.order.place_perm b _).trans (ih.cons b)

theorem pairwise_visits (s : Scope) : s.visits.Pairwise fun b c => s.order b.1 ≤ s.order c.1 := by
  unfold visits
  induction s.bindings with
  | nil => exact .nil
  | cons b l ih => exact s.order.pairwise_place b ih

theorem nodup_names (s : Scope) : (s.bindings.map Prod.fst).Nodup :=
  List.pairwise_map.mpr (s.sorted.imp String.ne_of_lt)

/-- A name has one binding. -/
theorem eq_of_name_eq {c : String × Float} (hb : b ∈ s.bindings) (hc : c ∈ s.bindings)
    (h : b.1 = c.1) : b = c :=
  List.inj_on_of_nodup_map s.nodup_names hb hc h

theorem mem_of_lookup_eq_some {x : String} {v : Float} {l : List (String × Float)}
    (h : l.lookup x = some v) : (x, v) ∈ l := by
  obtain ⟨before, after, rfl, -⟩ := List.lookup_eq_some_iff.mp h
  exact List.mem_append_right _ (.head _)

theorem find?_eq_some_iff {x : String} {v : Float} :
    s.find? x = some v ↔ (x, v) ∈ s.bindings := by
  refine ⟨mem_of_lookup_eq_some, fun h => ?_⟩
  cases hx : s.find? x with
  | none => exact absurd (List.lookup_eq_none_iff.mp hx _ h) (by simp)
  | some w =>
      have heq := eq_of_name_eq (mem_of_lookup_eq_some hx) h rfl
      rw [(Prod.mk.inj heq).2]

/-- **Every order can come up**: the names rank by their places. -/
theorem exists_visits_eq {l : List (String × Float)} (h : l.Perm s.bindings) :
    ∃ order, (s.inOrder order).visits = l := by
  have hnodup : (l.map Prod.fst).Nodup := (h.map Prod.fst).nodup_iff.mpr s.nodup_names
  let order : Order := fun x => (l.map Prod.fst).idxOf x
  have hsorted : l.Pairwise fun b c => order b.1 ≤ order c.1 := by
    refine List.pairwise_iff_getElem.mpr fun i j hi hj hij => ?_
    have hplace : ∀ k (hk : k < l.length), order l[k].1 = k := fun k hk => by
      have hlength : k < (l.map Prod.fst).length := by rwa [List.length_map]
      have hget : (l.map Prod.fst)[k] = l[k].1 := List.getElem_map _
      rw [← hget]
      exact hnodup.idxOf_getElem k _
    rw [hplace i hi, hplace j hj]
    exact Nat.le_of_lt hij
  have hperm : (s.inOrder order).visits.Perm l := (visits_perm _).trans h.symm
  refine ⟨order, List.Perm.eq_of_pairwise (fun b c hb hc hbc hcb => ?_)
    (pairwise_visits (s.inOrder order)) hsorted hperm⟩
  have hb' := hperm.mem_iff.mp hb
  have hname : b.1 = c.1 :=
    (List.idxOf_inj (List.mem_map_of_mem hb')).mp (Nat.le_antisymm hbc hcb)
  exact eq_of_name_eq (h.mem_iff.mp hb') (h.mem_iff.mp hc) hname

/-! ## Bindings that are not finite -/

/-- A scope that binds names to finite numbers only. -/
def IsFinite (scope : Scope) : Prop := ∀ b ∈ scope.bindings, b.2.isFinite = true

theorem isFinite_empty : empty.IsFinite := by
  rintro b ⟨⟩

theorem IsFinite.insert (hs : s.IsFinite) (x : String) {v : Float} (hv : v.isFinite = true) :
    (s.insert x v).IsFinite := by
  intro b hb
  rcases mem_of_mem_insertInto hb with rfl | hb
  · exact hv
  · exact hs b hb

theorem isFinite_inOrder {order : Order} : (s.inOrder order).IsFinite ↔ s.IsFinite := .rfl

theorem firstNonFinite?_eq_none_iff : s.firstNonFinite? = none ↔ s.IsFinite := by
  rw [firstNonFinite?, List.find?_eq_none]
  simp only [s.visits_perm.mem_iff, Bool.not_eq_true', Bool.not_eq_false, IsFinite]

theorem checkFinite_eq_ok_iff {scope : Scope} : scope.checkFinite = .ok () ↔ scope.IsFinite := by
  rw [← firstNonFinite?_eq_none_iff, checkFinite]
  cases scope.firstNonFinite? with
  | none => exact iff_of_true rfl rfl
  | some b => exact iff_of_false (by rintro ⟨⟩) (by rintro ⟨⟩)

/-- What is found is a binding that is not finite. -/
theorem of_firstNonFinite? (h : s.firstNonFinite? = some b) :
    b ∈ s.bindings ∧ b.2.isFinite = false := by
  have hb := List.find?_some h
  rw [Bool.not_eq_true'] at hb
  exact ⟨s.visits_perm.mem_iff.mp (List.mem_of_find?_eq_some h), hb⟩

/-- **Any binding that is not finite can be the first.** -/
theorem exists_firstNonFinite?_eq (hb : b ∈ s.bindings) (hv : b.2.isFinite = false) :
    ∃ order, (s.inOrder order).firstNonFinite? = some b := by
  obtain ⟨l, k, hl⟩ := List.append_of_mem hb
  have hperm : (b :: (l ++ k)).Perm s.bindings := by
    rw [hl]
    exact List.perm_middle.symm
  obtain ⟨order, hvisits⟩ := exists_visits_eq hperm
  refine ⟨order, ?_⟩
  rw [firstNonFinite?, hvisits]
  exact List.find?_cons_of_pos (by rw [hv]; rfl)

/-- Two names are bound to numbers that are not finite. -/
def IsAmbiguous (s : Scope) : Prop :=
  ∃ b ∈ s.bindings, ∃ c ∈ s.bindings, b.1 ≠ c.1 ∧ b.2.isFinite = false ∧ c.2.isFinite = false

/-- The one binding that is not finite is found in any order. -/
theorem firstNonFinite?_inOrder (h : ¬ s.IsAmbiguous) (order : Order) :
    (s.inOrder order).firstNonFinite? = s.firstNonFinite? := by
  cases hs : s.firstNonFinite? with
  | none =>
      rw [firstNonFinite?_eq_none_iff] at hs ⊢
      exact isFinite_inOrder.mpr hs
  | some b =>
      obtain ⟨hb, hbv⟩ := of_firstNonFinite? hs
      cases ho : (s.inOrder order).firstNonFinite? with
      | none =>
          rw [firstNonFinite?_eq_none_iff, isFinite_inOrder] at ho
          rw [ho b hb] at hbv
          cases hbv
      | some c =>
          obtain ⟨hc, hcv⟩ := of_firstNonFinite? ho
          have hname : c.1 = b.1 := not_not.mp fun hne => h ⟨c, hc, b, hb, hne, hcv, hbv⟩
          rw [eq_of_name_eq hc hb hname]

end Reckon.Scope
