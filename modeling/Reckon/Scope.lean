import Reckon.Fault

/-!
# Scopes

A scope gives numbers to names. What it says is kept in the order of the names, by code points, with
each name once; this is part of the type, so there is one list for each finite map.

The order in which a scope is gone through is another one. It is drawn with the scope and is no
business of what the scope says, but it decides which of several bindings is found first. Scopes
that give every name the same number and are gone through in the same order are equal (`ext`).
-/

namespace Reckon

/-- An order of the bindings of a scope, by the ranks of their names. Bindings of one rank go by
code points. -/
def Scope.Order := String → Nat

/-- A finite map from names to numbers, and the order in which it is gone through. -/
structure Scope where
  bindings : List (String × Float)
  order : Scope.Order
  sorted : bindings.Pairwise (fun a b => a.1 < b.1)

namespace Scope

namespace Order

/-- By code points. -/
def byName : Order := fun _ => 0

/-- Puts a binding in front of all bindings of its rank and above. -/
def place (order : Order) (b : String × Float) : List (String × Float) → List (String × Float)
  | [] => [b]
  | c :: l => if order b.1 ≤ order c.1 then b :: c :: l else c :: order.place b l

end Order

/-- The scope without bindings. -/
def empty : Scope := ⟨[], .byName, .nil⟩

instance : EmptyCollection Scope := ⟨empty⟩
instance : Inhabited Scope := ⟨empty⟩

/-- Puts a binding into its place in a sorted list, over an older one of the same name. -/
def insertInto (x : String) (v : Float) : List (String × Float) → List (String × Float)
  | [] => [(x, v)]
  | (y, w) :: r =>
    if x < y then (x, v) :: (y, w) :: r
    else if x = y then (x, v) :: r
    else (y, w) :: insertInto x v r

theorem mem_of_mem_insertInto {x : String} {v : Float} {b : String × Float}
    {l : List (String × Float)} (h : b ∈ insertInto x v l) : b = (x, v) ∨ b ∈ l := by
  induction l with
  | nil => exact .inl (List.mem_singleton.1 h)
  | cons a l ih =>
    rw [insertInto] at h
    split at h
    · exact List.mem_cons.1 h
    · split at h
      · exact (List.mem_cons.1 h).imp_right (List.mem_cons_of_mem a)
      · rcases List.mem_cons.1 h with rfl | h
        · exact .inr (.head _)
        · exact (ih h).imp_right (List.mem_cons_of_mem a)

theorem lt_of_not_lt_of_ne {x y : String} (h : ¬ x < y) (hne : x ≠ y) : y < x :=
  Std.lt_of_le_of_ne (String.not_lt.1 h) hne.symm

theorem pairwise_insertInto (x : String) (v : Float) {l : List (String × Float)}
    (h : l.Pairwise (fun a b => a.1 < b.1)) :
    (insertInto x v l).Pairwise (fun a b => a.1 < b.1) := by
  induction l with
  | nil => simp [insertInto]
  | cons a l ih =>
    obtain ⟨ha, hl⟩ := List.pairwise_cons.1 h
    rw [insertInto]
    split
    · refine List.pairwise_cons.2 ⟨fun b hb => ?_, h⟩
      rcases List.mem_cons.1 hb with rfl | hb
      · assumption
      · exact String.lt_trans ‹_› (ha b hb)
    · split
      · subst x
        exact List.pairwise_cons.2 ⟨ha, hl⟩
      · refine List.pairwise_cons.2 ⟨fun b hb => ?_, ih hl⟩
        rcases mem_of_mem_insertInto hb with rfl | hb
        · exact lt_of_not_lt_of_ne ‹_› ‹_›
        · exact ha b hb

/-- A scope with one more binding, which replaces an older one of the same name. -/
def insert (s : Scope) (x : String) (v : Float) : Scope :=
  ⟨insertInto x v s.bindings, s.order, pairwise_insertInto x v s.sorted⟩

/-- The scope of some bindings, later ones replacing earlier ones. -/
def ofList (l : List (String × Float)) : Scope := l.foldl (fun s b => s.insert b.1 b.2) empty

/-- The number that a name stands for. -/
def find? (s : Scope) (x : String) : Option Float := s.bindings.lookup x

/-- The number of names. -/
def size (s : Scope) : Nat := s.bindings.length

def isEmpty (s : Scope) : Bool := s.bindings.isEmpty

/-- Whether two scopes bind the same names to numbers that compare equal: a value that is no number
differs from itself, and the two zeros are equal. -/
def agrees (s t : Scope) : Bool :=
  s.size == t.size && s.bindings.all fun (x, v) => (t.find? x).any (v == ·)

/-- What a scope says, gone through in another order. -/
def inOrder (s : Scope) (order : Order) : Scope := { s with order }

/-- The bindings in the order in which the scope is gone through. -/
def visits (s : Scope) : List (String × Float) := s.bindings.foldr s.order.place []

/-- The first binding that is gone through and is no finite number. -/
def firstNonFinite? (s : Scope) : Option (String × Float) := s.visits.find? (!·.2.isFinite)

/-- Refuses a scope that holds anything but finite numbers. -/
def checkFinite (s : Scope) : Except Fault Unit :=
  match s.firstNonFinite? with
  | some (x, v) => .error (.nonFiniteBinding x v)
  | none => .ok ()

/-! ## What a scope says of a name -/

@[simp] theorem find?_empty (x : String) : empty.find? x = none := rfl

/-- A look-up compares the name with the names of the list in turn. -/
theorem lookup_cons_eq_ite (x : String) (a : String × Float) (l : List (String × Float)) :
    (a :: l).lookup x = if x = a.1 then some a.2 else l.lookup x := by
  rw [List.lookup_cons]
  by_cases h : x = a.1
  · simp [h]
  · simp [h, beq_false_of_ne h]

theorem lookup_insertInto (x y : String) (v : Float) (l : List (String × Float)) :
    (insertInto x v l).lookup y = if y = x then some v else l.lookup y := by
  induction l with
  | nil => rw [insertInto, lookup_cons_eq_ite]
  | cons a l ih =>
    rw [insertInto]
    split
    · rw [lookup_cons_eq_ite]
    · split
      · -- the older binding of the name is hidden by the new one
        subst x
        rw [lookup_cons_eq_ite, lookup_cons_eq_ite]
        by_cases h : y = a.1
        · rw [if_pos h, if_pos h]
        · rw [if_neg h, if_neg h, if_neg h]
      · rw [lookup_cons_eq_ite, ih, lookup_cons_eq_ite]
        by_cases h : y = a.1
        · rw [if_pos h, if_pos h, if_neg fun hx => ‹x ≠ a.1› (hx.symm.trans h)]
        · rw [if_neg h, if_neg h]

@[simp] theorem find?_insert (s : Scope) (x y : String) (v : Float) :
    (s.insert x v).find? y = if y = x then some v else s.find? y :=
  lookup_insertInto x y v s.bindings

theorem lookup_eq_none_of_lt {x : String} {l : List (String × Float)}
    (h : ∀ b ∈ l, x < b.1) : l.lookup x = none := by
  refine List.lookup_eq_none_iff.2 fun b hb => bne_iff_ne.2 ?_
  rintro rfl
  exact String.lt_irrefl _ (h b hb)

theorem lookup_head (a : String × Float) (l : List (String × Float)) :
    (a :: l).lookup a.1 = some a.2 := by
  rw [lookup_cons_eq_ite, if_pos rfl]

/-- In two sorted lists that say the same of every name, the first names are not apart: the lower
one would be missing from the other list. -/
theorem not_lt_of_lookup_eq {a b : String × Float} {l k : List (String × Float)}
    (hb : ∀ c ∈ k, b.1 < c.1) (h : ∀ x, (a :: l).lookup x = (b :: k).lookup x) : ¬ a.1 < b.1 := by
  intro hab
  have hall : ∀ c ∈ b :: k, a.1 < c.1 := fun c hc => by
    rcases List.mem_cons.1 hc with rfl | hc
    · exact hab
    · exact String.lt_trans hab (hb c hc)
  have := h a.1
  rw [lookup_head, lookup_eq_none_of_lt hall] at this
  cases this

theorem eq_of_lookup_eq {l k : List (String × Float)} (hl : l.Pairwise (fun a b => a.1 < b.1))
    (hk : k.Pairwise (fun a b => a.1 < b.1)) (h : ∀ x, l.lookup x = k.lookup x) : l = k := by
  induction l generalizing k with
  | nil =>
    cases k with
    | nil => rfl
    | cons b k =>
      have := h b.1
      rw [lookup_head] at this
      cases this
  | cons a l ih =>
    cases k with
    | nil =>
      have := h a.1
      rw [lookup_head] at this
      cases this
    | cons b k =>
      obtain ⟨ha, hl⟩ := List.pairwise_cons.1 hl
      obtain ⟨hb, hk⟩ := List.pairwise_cons.1 hk
      have hab : a.1 = b.1 := by
        refine Decidable.byContradiction fun hne => ?_
        exact not_lt_of_lookup_eq ha (fun x => (h x).symm)
          (lt_of_not_lt_of_ne (not_lt_of_lookup_eq hb h) hne)
      have hv : a.2 = b.2 := by
        have := h a.1
        rw [lookup_head, hab, lookup_head] at this
        exact Option.some.inj this
      have htail : l = k := ih hl hk fun x => by
        by_cases hx : x = a.1
        · subst x
          rw [lookup_eq_none_of_lt ha, hab, lookup_eq_none_of_lt hb]
        · have := h x
          rwa [lookup_cons_eq_ite, if_neg hx, lookup_cons_eq_ite, if_neg (hab ▸ hx)] at this
      rw [htail, Prod.ext hab hv]

/-- Scopes that say the same of every name, and are gone through in the same order, are equal. -/
theorem ext {s t : Scope} (h : ∀ x, s.find? x = t.find? x) (horder : s.order = t.order) :
    s = t := by
  obtain ⟨l, order, hl⟩ := s
  obtain ⟨k, order', hk⟩ := t
  obtain rfl := eq_of_lookup_eq hl hk h
  obtain rfl : order = order' := horder
  rfl

end Scope

end Reckon
