import Reckon.Builtin.Value
import Reckon.Proofs.Number.Order

/-!
# The smallest and the largest argument

The two functions of any number of arguments go through them from the left and keep one value, which
is the first argument to begin with. A value that is no number gives way to any other, so the one
that is kept may be none for a while. What it is at every moment is said by `IsExtreme`: it is one
of the arguments so far, it is a number as soon as one of these is, and then no number among them
lies beyond it. One more argument keeps that (`IsExtreme.step`).

The order of the arguments is not in this, and a value with the property is the only one unless both
zeros are there (`IsExtreme.unique`). So arguments may be put in another order, and some of them may
be replaced by their own extreme (`IsExtreme.nest`).
-/

namespace Reckon.Builtin

open Number

/-- A value stands for some arguments: it is one of them, and if one of them is a number, then so is
the value, and it does not come after it. -/
structure IsExtreme (le : Float → Float → Prop) (args : List Float) (m : Float) : Prop where
  mem : m ∈ args
  bound : ∀ a ∈ args, a.isNaN = false → m.isNaN = false ∧ le m a

/-- An operation chooses the first of two values in an order of the numbers, and a number before any
other value. Only the two zeros share their place in the order. -/
structure Picks (le : Float → Float → Prop) (pick : Float → Float → Float) : Prop where
  left : ∀ a b, a.isNaN = true → pick a b = b
  right : ∀ a b, a.isNaN = false → b.isNaN = true → pick a b = a
  both : ∀ a b, a.isNaN = false → b.isNaN = false → pick a b = a ∧ le a b ∨ pick a b = b ∧ le b a
  refl : ∀ a, a.isNaN = false → le a a
  trans : ∀ a b c, a.isNaN = false → b.isNaN = false → c.isNaN = false →
    le a b → le b c → le a c
  antisymm : ∀ a b, a.isNaN = false → b.isNaN = false → le a b → le b a →
    a = b ∨ a = 0 ∧ b = -0 ∨ a = -0 ∧ b = 0

theorem picks_least : Picks (· ≤ ·) (least : Float → Float → Float) where
  left a b ha := if_pos ha
  right a b ha hb := by
    change (if a.isNaN then b else if b.isNaN then a else _) = a
    rw [ha, hb]
    rfl
  both a b ha hb := by
    have hleast : least a b = if a < b then a else b := by
      change (if a.isNaN then b else if b.isNaN then a else if decide (a < b) then a else b) = _
      rw [ha, hb]
      simp
    rw [hleast, le_iff ha hb, le_iff hb ha]
    split
    · exact .inl ⟨rfl, Int.le_of_lt ((lt_iff ha hb).mp ‹_›)⟩
    · exact .inr ⟨rfl, Int.not_lt.mp (mt (lt_iff ha hb).mpr ‹_›)⟩
  refl a ha := (le_iff ha ha).mpr (Int.le_refl _)
  trans a b c ha hb hc hab hbc := by
    rw [le_iff ha hb] at hab
    rw [le_iff hb hc] at hbc
    exact (le_iff ha hc).mpr (Int.le_trans hab hbc)
  antisymm a b ha hb hab hba := by
    rw [le_iff ha hb] at hab
    rw [le_iff hb ha] at hba
    exact eq_of_ordinal_eq ha hb (Int.le_antisymm hab hba)

theorem picks_greatest : Picks (· ≥ ·) (greatest : Float → Float → Float) where
  left a b ha := if_pos ha
  right a b ha hb := by
    change (if a.isNaN then b else if b.isNaN then a else _) = a
    rw [ha, hb]
    rfl
  both a b ha hb := by
    have hgreatest : greatest a b = if b < a then a else b := by
      change (if a.isNaN then b else if b.isNaN then a else if decide (b < a) then a else b) = _
      rw [ha, hb]
      simp
    rw [hgreatest, ge_iff_le, ge_iff_le, le_iff ha hb, le_iff hb ha]
    split
    · exact .inl ⟨rfl, Int.le_of_lt ((lt_iff hb ha).mp ‹_›)⟩
    · exact .inr ⟨rfl, Int.not_lt.mp (mt (lt_iff hb ha).mpr ‹_›)⟩
  refl := picks_least.refl
  trans a b c ha hb hc hab hbc := picks_least.trans c b a hc hb ha hbc hab
  antisymm a b ha hb hab hba := picks_least.antisymm a b ha hb hba hab

theorem IsExtreme.perm {le : Float → Float → Prop} {args args' : List Float} {m : Float}
    (h : IsExtreme le args m) (hperm : args.Perm args') : IsExtreme le args' m :=
  ⟨hperm.mem_iff.mp h.mem, fun a ha => h.bound a (hperm.mem_iff.mpr ha)⟩

section

variable {le : Float → Float → Prop} {pick : Float → Float → Float} (picks : Picks le pick)
  {seen args part rest xs : List Float} {m m' inner : Float}

include picks

theorem isExtreme_singleton (x : Float) : IsExtreme le [x] x where
  mem := List.mem_singleton_self x
  bound a ha hnum := by
    obtain rfl := List.mem_singleton.mp ha
    exact ⟨hnum, picks.refl a hnum⟩

/-- One more argument. -/
theorem IsExtreme.step (h : IsExtreme le seen m) (b : Float) :
    IsExtreme le (seen ++ [b]) (pick m b) := by
  cases hm : m.isNaN with
  | true =>
      -- nothing was a number so far, and the new argument is kept, whatever it is
      rw [picks.left m b hm]
      refine ⟨List.mem_concat_self, fun a ha hnum => ?_⟩
      rcases List.mem_append.mp ha with ha | ha
      · exact absurd (h.bound a ha hnum).1 (by rw [hm]; decide)
      · exact (isExtreme_singleton picks b).bound a ha hnum
  | false =>
      have hkeep (hle : b.isNaN = false → le m b) : IsExtreme le (seen ++ [b]) m := by
        refine ⟨List.mem_append_left _ h.mem, fun a ha hnum => ?_⟩
        rcases List.mem_append.mp ha with ha | ha
        · exact h.bound a ha hnum
        · obtain rfl := List.mem_singleton.mp ha
          exact ⟨hm, hle hnum⟩
      cases hb : b.isNaN with
      | true =>
          rw [picks.right m b hm hb]
          exact hkeep fun hnum => absurd hnum (by rw [hb]; decide)
      | false =>
          rcases picks.both m b hm hb with ⟨hpick, hle⟩ | ⟨hpick, hle⟩ <;> rw [hpick]
          · exact hkeep fun _ => hle
          · refine ⟨List.mem_concat_self, fun a ha hnum => ⟨hb, ?_⟩⟩
            rcases List.mem_append.mp ha with ha | ha
            · exact picks.trans b m a hb hm hnum hle (h.bound a ha hnum).2
            · exact ((isExtreme_singleton picks b).bound a ha hnum).2

/-- All further arguments, one by one. -/
theorem IsExtreme.run (h : IsExtreme le seen m) :
    IsExtreme le (seen ++ xs) (xs.foldl pick m) := by
  induction xs generalizing seen m with
  | nil => rwa [List.append_nil]
  | cons x xs ih =>
      have hrest := ih (h.step picks x)
      rwa [List.append_assoc] at hrest

theorem isExtreme_foldl (x : Float) (xs : List Float) :
    IsExtreme le (x :: xs) (xs.foldl pick x) := (isExtreme_singleton picks x).run picks

/-- Arguments have one extreme, unless both zeros are among them. -/
theorem IsExtreme.unique (h : IsExtreme le args m) (h' : IsExtreme le args m')
    (zeros : ¬ ((0 : Float) ∈ args ∧ (-0 : Float) ∈ args)) : m = m' := by
  cases hm : m.isNaN with
  | true =>
      cases hm' : m'.isNaN with
      | true => exact eq_of_isNaN hm hm'
      | false => exact absurd (h.bound m' h'.mem hm').1 (by rw [hm]; decide)
  | false =>
      obtain ⟨hm', hle'⟩ := h'.bound m h.mem hm
      obtain ⟨-, hle⟩ := h.bound m' h'.mem hm'
      rcases picks.antisymm m m' hm hm' hle hle' with heq | ⟨rfl, rfl⟩ | ⟨rfl, rfl⟩
      · exact heq
      · exact absurd ⟨h.mem, h'.mem⟩ zeros
      · exact absurd ⟨h'.mem, h.mem⟩ zeros

/-- The extreme of some arguments may stand for them among the others. -/
theorem IsExtreme.nest (h : IsExtreme le part inner) (h' : IsExtreme le (inner :: rest) m) :
    IsExtreme le (part ++ rest) m := by
  refine ⟨?_, fun a ha hnum => ?_⟩
  · rcases List.mem_cons.mp h'.mem with rfl | hmem
    · exact List.mem_append_left _ h.mem
    · exact List.mem_append_right _ hmem
  · rcases List.mem_append.mp ha with ha | ha
    · obtain ⟨hinner, hle⟩ := h.bound a ha hnum
      obtain ⟨hm, hle'⟩ := h'.bound inner List.mem_cons_self hinner
      exact ⟨hm, picks.trans m inner a hm hinner hnum hle' hle⟩
    · exact h'.bound a (List.mem_cons_of_mem _ ha) hnum

end

/-- Each of the two functions goes through its arguments with an operation that chooses. -/
theorem exists_picks {f : Builtin} {le : Float → Float → Prop}
    (hf : f = min ∧ le = (· ≤ ·) ∨ f = max ∧ le = (· ≥ ·)) :
    ∃ pick, Picks le pick ∧ ∀ x xs, f.apply (x :: xs) = .ok (xs.foldl pick x) := by
  rcases hf with ⟨rfl, rfl⟩ | ⟨rfl, rfl⟩
  · exact ⟨least, picks_least, fun _ _ => rfl⟩
  · exact ⟨greatest, picks_greatest, fun _ _ => rfl⟩

/-- **The smallest and the largest argument.** Of any arguments but both zeros together, the result
is no number exactly if none of them is one, and otherwise it is one of them that is a number and
bounds all the numbers among them. It does not depend on the order of the arguments, nor on whether
a call of the same function stands for some of them. -/
theorem extreme_exact {f : Builtin} {le : Float → Float → Prop}
    (hf : f = min ∧ le = (· ≤ ·) ∨ f = max ∧ le = (· ≥ ·)) {args : List Float} (hne : args ≠ [])
    (zeros : ¬ ((0 : Float) ∈ args ∧ (-0 : Float) ∈ args)) :
    ∃ m, f.apply args = .ok m
      ∧ (m.isNaN = true ↔ ∀ a ∈ args, a.isNaN = true)
      ∧ (m.isNaN = false → m ∈ args ∧ ∀ a ∈ args, a.isNaN = false → le m a)
      ∧ (∀ args' : List Float, args'.Perm args → f.apply args' = .ok m)
      ∧ ∀ part rest : List Float, part ≠ [] → (part ++ rest).Perm args →
          ∃ inner, f.apply part = .ok inner
            ∧ ∀ nested : List Float, nested.Perm (inner :: rest) → f.apply nested = .ok m := by
  obtain ⟨pick, picks, happly⟩ := exists_picks hf
  have exists_extreme (xs : List Float) (hxs : xs ≠ []) :
      ∃ m, f.apply xs = .ok m ∧ IsExtreme le xs m := by
    obtain ⟨x, xs, rfl⟩ := List.exists_cons_of_ne_nil hxs
    exact ⟨_, happly x xs, isExtreme_foldl picks x xs⟩
  obtain ⟨m, hm, hextreme⟩ := exists_extreme args hne
  refine ⟨m, hm, ⟨fun hnan a ha => ?_, fun hall => hall m hextreme.mem⟩,
    fun hnum => ⟨hextreme.mem, fun a ha hnum => (hextreme.bound a ha hnum).2⟩,
    fun args' hperm => ?_, fun part rest hpart hperm => ?_⟩
  · cases ha' : a.isNaN with
    | true => rfl
    | false => exact absurd (hextreme.bound a ha ha').1 (by rw [hnan]; decide)
  · obtain ⟨m', hm', hextreme'⟩ := exists_extreme args' fun h => hne (h ▸ hperm).symm.eq_nil
    rw [hm', hextreme.unique picks (hextreme'.perm hperm) zeros]
  · obtain ⟨inner, hinner, hpart'⟩ := exists_extreme part hpart
    refine ⟨inner, hinner, fun nested hnested => ?_⟩
    obtain ⟨m', hm', hextreme'⟩ := exists_extreme nested fun h =>
      List.cons_ne_nil _ _ (h ▸ hnested).symm.eq_nil
    -- both calls give an extreme of the same arguments, and there is only one
    have hflat := (hpart'.nest picks (hextreme'.perm hnested)).perm hperm
    rw [hm', hextreme.unique picks hflat zeros]

/-- A value that is no number in front of an infinite one. -/
theorem extreme_exact_of_mixed :
    let args : List Float := [0 / 0, 3, -1 / 0, 2]
    args ≠ [] ∧ ¬ ((0 : Float) ∈ args ∧ (-0 : Float) ∈ args)
    ∧ min.apply args = .ok (-1 / 0)
    ∧ min.apply [2, -1 / 0, 0 / 0, 3] = .ok (-1 / 0 : Float)
    ∧ ∃ inner : Float, min.apply [0 / 0, 3] = .ok inner
      ∧ min.apply [2, inner, -1 / 0] = .ok (-1 / 0) := by
  have hne : ([0 / 0, 3, -1 / 0, 2] : List Float) ≠ [] := List.cons_ne_nil _ _
  have zeros : ¬ ((0 : Float) ∈ ([0 / 0, 3, -1 / 0, 2] : List Float)
      ∧ (-0 : Float) ∈ ([0 / 0, 3, -1 / 0, 2] : List Float)) := by
    simp only [List.mem_cons, List.not_mem_nil]
    decide +kernel
  have hmin : min.apply ([0 / 0, 3, -1 / 0, 2] : List Float) = .ok (-1 / 0) :=
    congrArg Except.ok
      (show [3, -1 / 0, 2].foldl least (0 / 0) = (-1 / 0 : Float) by decide +kernel)
  have hturned : ([2, -1 / 0, 0 / 0, 3] : List Float).Perm [0 / 0, 3, -1 / 0, 2] := by
    have hhalves : ([-1 / 0, 2] ++ [0 / 0, 3] : List Float).Perm ([0 / 0, 3] ++ [-1 / 0, 2]) :=
      List.perm_append_comm
    exact (List.Perm.swap ..).trans hhalves
  obtain ⟨m, hm, -, -, hperm, hnest⟩ := extreme_exact (f := min) (.inl ⟨rfl, rfl⟩) hne zeros
  obtain rfl := Except.ok.inj (hmin.symm.trans hm)
  obtain ⟨inner, hinner, hnested⟩ := hnest [0 / 0, 3] [-1 / 0, 2] (List.cons_ne_nil _ _) (.refl _)
  refine ⟨hne, zeros, hmin, hperm _ hturned, inner, hinner, hnested _ ?_⟩
  exact (List.Perm.swap ..).trans ((List.Perm.swap ..).cons _)

end Reckon.Builtin
