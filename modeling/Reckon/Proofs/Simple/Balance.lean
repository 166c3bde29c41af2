import Mathlib.Combinatorics.Enumerative.DyckWord
import Reckon.Proofs.Stages
import Reckon.Simple

/-!
# What is read has matching parentheses

The simple evaluator counts the parentheses of a text before it reads it, and the reader keeps those
that are open on a stack. If the two disagreed, the count would refuse a text that has a value.

They agree because both look at the same thing, the steps up and down that the parentheses of a text
make. The count accepts exactly the Dyck words among them (`balanced_iff`); the lexer makes a token
of every parenthesis and of nothing else (`Token.steps_scanFrom`); and the tokens of a phrase are a
Dyck word, because its parentheses come in pairs around phrases (`Phrase.isDyck`).
-/

namespace Reckon

open DyckStep

/-! ## Dyck words -/

/-- Steps that are those of a Dyck word. -/
def IsDyck (steps : List DyckStep) : Prop := ∃ w : DyckWord, w.toList = steps

theorem isDyck_nil : IsDyck [] := ⟨0, rfl⟩

theorem IsDyck.append {a b : List DyckStep} (ha : IsDyck a) (hb : IsDyck b) : IsDyck (a ++ b) := by
  obtain ⟨v, rfl⟩ := ha
  obtain ⟨w, rfl⟩ := hb
  exact ⟨v + w, rfl⟩

theorem IsDyck.nest {a : List DyckStep} (h : IsDyck a) : IsDyck (U :: (a ++ [D])) := by
  obtain ⟨w, rfl⟩ := h
  exact ⟨w.nest, rfl⟩

/-- The steps lead from a height down to the ground, and never below it. -/
@[mk_iff]
structure Descends (height : Nat) (steps : List DyckStep) : Prop where
  ends : height + steps.count U = steps.count D
  above : ∀ i, (steps.take i).count D ≤ height + (steps.take i).count U

theorem descends_zero_iff {steps : List DyckStep} : Descends 0 steps ↔ IsDyck steps := by
  constructor
  · intro h
    exact ⟨⟨steps, by simpa using h.ends, fun i => by simpa using h.above i⟩, rfl⟩
  · rintro ⟨w, rfl⟩
    exact ⟨by simpa using w.count_U_eq_count_D, fun i => by simpa using w.count_D_le_count_U i⟩

/-- The front parts of a list that is not empty, without their first element. -/
theorem forall_take_cons {α : Type} {P : List α → Prop} {a : α} {l : List α} :
    (∀ i, P ((a :: l).take i)) ↔ P [] ∧ ∀ i, P (a :: l.take i) := by
  refine ⟨fun h => ⟨h 0, fun i => h (i + 1)⟩, fun h i => ?_⟩
  cases i with
  | zero => exact h.1
  | succ i => exact h.2 i

theorem descends_nil_iff {height : Nat} : Descends height [] ↔ height = 0 :=
  ⟨fun h => by simpa using h.ends, by rintro rfl; exact descends_zero_iff.mpr isDyck_nil⟩

theorem descends_up_iff {height : Nat} {steps : List DyckStep} :
    Descends height (U :: steps) ↔ Descends (height + 1) steps := by
  rw [descends_iff, descends_iff,
    forall_take_cons (P := fun l => l.count D ≤ height + l.count U)]
  simp only [List.count_cons_self, List.count_cons_of_ne (show U ≠ D by decide), List.count_nil,
    Nat.zero_le, true_and, Nat.add_assoc, Nat.add_comm 1]

theorem descends_down_iff {height : Nat} {steps : List DyckStep} :
    Descends (height + 1) (D :: steps) ↔ Descends height steps := by
  rw [descends_iff, descends_iff,
    forall_take_cons (P := fun l => l.count D ≤ height + 1 + l.count U)]
  simp only [List.count_cons_self, List.count_cons_of_ne (show D ≠ U by decide), List.count_nil,
    Nat.zero_le, true_and, Nat.add_right_comm height 1, Nat.add_right_cancel_iff,
    Nat.add_le_add_iff_right]

/-- There is no way down from the ground. -/
theorem not_descends_down {steps : List DyckStep} : ¬ Descends 0 (D :: steps) :=
  fun h => absurd (h.above 1) (by simp)

/-! ## The parentheses of a text -/

/-- The step that a character makes, if it is a parenthesis. -/
def Text.step? : Char → Option DyckStep
  | '(' => some U
  | ')' => some D
  | _ => none

/-- The steps that the parentheses of a text make. -/
def Text.steps (cs : List Char) : List DyckStep := cs.filterMap step?

/-- The count goes through the text as through the steps. -/
theorem Simple.balancedFrom_iff (depth : Nat) (cs : List Char) :
    balancedFrom depth cs = true ↔ Descends depth (Text.steps cs) := by
  fun_induction balancedFrom depth cs with
  | case1 depth => simpa [Text.steps] using descends_nil_iff.symm
  | case2 depth cs ih => rw [ih, ← descends_up_iff]; rfl
  | case3 cs => exact iff_of_false Bool.false_ne_true not_descends_down
  | case4 cs depth ih => rw [ih, ← descends_down_iff]; rfl
  | case5 depth c cs hopen hclose ih =>
      have hc : Text.step? c = none := by
        unfold Text.step?
        split <;> simp_all
      rw [ih, Text.steps, Text.steps, List.filterMap_cons_none hc]

/-- **The count accepts the Dyck words** and nothing else. -/
theorem Simple.balanced_iff (cs : List Char) :
    balancedFrom 0 cs = true ↔ IsDyck (Text.steps cs) := by
  rw [balancedFrom_iff, descends_zero_iff]

/-! ## The parentheses among the tokens -/

namespace Token

/-- The step that a token makes, if it is a parenthesis. -/
def step? : Token → Option DyckStep
  | lpar => some U
  | rpar => some D
  | _ => none

/-- The steps that the parentheses among some tokens make. -/
def steps (ts : List Token) : List DyckStep := ts.filterMap step?

@[simp] theorem steps_nil : steps [] = [] := rfl

@[simp] theorem steps_append (ts us : List Token) : steps (ts ++ us) = steps ts ++ steps us :=
  List.filterMap_append

theorem steps_cons (t : Token) (ts : List Token) : steps (t :: ts) = t.step?.toList ++ steps ts := by
  unfold steps
  cases h : t.step? with
  | none => rw [List.filterMap_cons_none h]; rfl
  | some s => rw [List.filterMap_cons_some h]; rfl

end Token

namespace Text

theorem steps_append (cs ds : List Char) : steps (cs ++ ds) = steps cs ++ steps ds :=
  List.filterMap_append

theorem steps_cons (c : Char) (cs : List Char) : steps (c :: cs) = (step? c).toList ++ steps cs := by
  unfold steps
  cases h : step? c with
  | none => rw [List.filterMap_cons_none h]; rfl
  | some s => rw [List.filterMap_cons_some h]; rfl

theorem steps_eq_nil {cs : List Char} (h : ∀ c ∈ cs, step? c = none) : steps cs = [] :=
  List.filterMap_eq_nil_iff.mpr h

/-- A character of a class that neither parenthesis belongs to. -/
theorem step?_eq_none {p : Char → Bool} (hopen : p '(' = false) (hclose : p ')' = false) {c : Char}
    (hc : p c = true) : step? c = none := by
  unfold step?
  split
  · rw [hopen] at hc
    cases hc
  · rw [hclose] at hc
    cases hc
  · rfl

end Text

namespace Token

theorem step?_of_symbol {c : Char} {t : Token} (h : ofSymbol? c = some t) :
    Text.step? c = t.step? := by
  unfold ofSymbol? at h
  split at h
  all_goals cases h
  all_goals rfl

/-- There is no parenthesis in a number. -/
theorem steps_number {before : Option Char} {cs : List Char} {l : Lexeme}
    (h : number before cs = .ok l) : Text.steps l.text = l.token.step?.toList := by
  have hdigits : ∀ ds : List Char, Text.steps (ds.takeWhile Char.isDigit) = [] := fun ds =>
    Text.steps_eq_nil fun d hd =>
      Text.step?_eq_none rfl rfl (List.all_eq_true.mp List.all_takeWhile d hd)
  have hfraction : ∀ ds : List Char, Text.steps (splitFraction ds).1 = [] := by
    intro ds
    unfold splitFraction
    split
    · rw [Text.steps_cons, hdigits]
      rfl
    · rfl
  unfold number at h
  dsimp only at h
  split at h
  · split at h <;> cases h
  · split at h
    · cases h
    · cases h
      rw [Text.steps_append, hdigits, hfraction]
      rfl

/-- A lexeme is a parenthesis exactly if its token is. -/
theorem steps_lexeme {before : Option Char} {c : Char} {cs : List Char} {l : Lexeme}
    (h : lexeme before c cs = .ok l) : Text.steps l.text = l.token.step?.toList := by
  unfold lexeme at h
  split at h
  · rename_i t ht
    cases h
    rw [← step?_of_symbol ht, Text.steps_cons]
    exact List.append_nil _
  · split at h
    · rename_i hc
      cases h
      refine Text.steps_eq_nil fun d hd => ?_
      rcases List.mem_cons.mp hd with rfl | hd
      · exact Text.step?_eq_none rfl rfl hc
      · exact Text.step?_eq_none rfl rfl (List.all_eq_true.mp List.all_takeWhile d hd)
    · split at h
      · exact steps_number h
      · cases h

/-- **The lexer keeps the parentheses.** -/
theorem steps_scanFrom {before : Option Char} {found ts : List Token} {cs : List Char}
    (h : scanFrom before found cs = .ok ts) :
    steps ts = steps found.reverse ++ Text.steps cs := by
  fun_induction scanFrom before found cs with
  | case1 before found =>
      cases h
      exact (List.append_nil _).symm
  | case2 before found c cs hc ih =>
      rw [ih h, Text.steps_cons, Text.step?_eq_none rfl rfl hc]
      rfl
  | case3 => cases h
  | case4 before found c cs hc l hl ih =>
      rw [ih h, ← lexeme_append hl, Text.steps_append, steps_lexeme hl, List.reverse_cons,
        steps_append, steps_cons, steps_nil, List.append_nil, List.append_assoc]

theorem steps_scan {s : String} {ts : List Token} (h : scan s = .ok ts) :
    steps ts = Text.steps s.toList := steps_scanFrom h

end Token

/-! ## The parentheses of a phrase -/

theorem IsDyck.around {ts : List Token} (h : IsDyck (Token.steps ts)) :
    IsDyck (Token.steps (.lpar :: (ts ++ [.rpar]))) := by
  rw [Token.steps_cons, Token.steps_append]
  exact h.nest

/-- Two Dyck words with a token between them that is no parenthesis. -/
theorem IsDyck.between {ts us : List Token} {t : Token} (ht : t.step? = none)
    (hts : IsDyck (Token.steps ts)) (hus : IsDyck (Token.steps us)) :
    IsDyck (Token.steps (ts ++ t :: us)) := by
  rw [Token.steps_append, Token.steps_cons, ht]
  exact hts.append hus

theorem IsDyck.behind {us : List Token} {t : Token} (ht : t.step? = none)
    (hus : IsDyck (Token.steps us)) : IsDyck (Token.steps (t :: us)) := by
  rw [Token.steps_cons, ht]
  exact hus

mutual

/-- **The parentheses of a phrase match.** -/
theorem Phrase.isDyck : ∀ {k : Rank} (q : Phrase k), IsDyck (Token.steps q.tokens)
  | _, .num _ => isDyck_nil
  | _, .name _ _ => isDyck_nil
  | _, .group s => s.isDyck.around
  | _, .call _ args _ => args.isDyck.around.behind rfl
  | _, .ofAtom a => a.isDyck
  | _, .pow a b => a.isDyck.between rfl b.isDyck
  | _, .ofPower p => p.isDyck
  | _, .plus p => p.isDyck.behind rfl
  | _, .minus p => p.isDyck.behind rfl
  | _, .ofSigned s => s.isDyck
  | _, .mul _ _ p s => p.isDyck.between rfl s.isDyck
  | _, .ofProduct p => p.isDyck
  | _, .add _ _ s p => s.isDyck.between rfl p.isDyck

theorem Arguments.isDyck : ∀ {n : Nat} (args : Arguments n), IsDyck (Token.steps args.tokens)
  | _, .one s => s.isDyck
  | _, .more args s => args.isDyck.between rfl s.isDyck

end

/-- **What is read is balanced.** -/
theorem Parsed.isDyck {s : String} {p : Parsed} (h : Parsed.ofText s = .ok p) :
    IsDyck (Text.steps s.toList) := by
  obtain ⟨hscan, q, hq, -, -⟩ := Parsed.stages h
  rw [← Token.steps_scan hscan, ← hq]
  exact q.isDyck

end Reckon
