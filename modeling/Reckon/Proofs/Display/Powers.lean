import Mathlib.Data.List.Forall2
import Reckon.Proofs.Display.Context

/-!
# The powers of a text and of its tree

The powers in a text and the exponents in the tree that it is read as come in the same order, so
they can be compared one by one. `Marks` does so for what is asked here: whether a minus sign follows
a power, and what this says of its exponent.

* In a phrase, the exponent after a minus sign is an opposite (`Phrase.marks`).
* In the text of a tree no minus sign follows a power (`marks_tokensAt`).
* If the text of a part of a tree stands without its parentheses, a minus sign may follow a power;
  but unless the part is the exponent itself, the exponent is no opposite (`marks_tokens`).
-/

namespace Reckon

namespace Token

/-- For each power among some tokens, in order, whether a minus sign follows it. -/
def signedPowers : List Token → List Bool
  | [] => []
  | t :: ts =>
    if t = .op .pow then decide (ts.head? = some (.op .sub)) :: signedPowers ts
    else signedPowers ts

theorem signedPowers_pow (ts : List Token) :
    signedPowers (.op .pow :: ts) = decide (ts.head? = some (.op .sub)) :: signedPowers ts :=
  if_pos rfl

theorem signedPowers_cons {t : Token} (h : t ≠ .op .pow) (ts : List Token) :
    signedPowers (t :: ts) = signedPowers ts := if_neg h

end Token

namespace Expr

mutual

/-- The exponents of the powers in a tree, in the order of its text. -/
def exponents : Expr → List Expr
  | num _ => []
  | var _ => []
  | neg e => e.exponents
  | bin op a b => a.exponents ++ (if op = .pow then [b] else []) ++ b.exponents
  | call _ args => exponentsOfAll args

/-- The exponents of the powers in some trees. -/
def exponentsOfAll : List Expr → List Expr
  | [] => []
  | a :: args => a.exponents ++ exponentsOfAll args

end

theorem exponentsOfAll_append (as bs : List Expr) :
    exponentsOfAll (as ++ bs) = exponentsOfAll as ++ exponentsOfAll bs := by
  induction as with
  | nil => rfl
  | cons a as ih => simp [exponentsOfAll, ih]

end Expr

/-! ## The powers of a text and of its tree -/

open Token (signedPowers signedPowers_pow signedPowers_cons)

/-- The powers among some tokens have some exponents, and a property holds of each exponent and of
whether a minus sign follows its power. -/
structure Marks (P : Bool → Expr → Prop) (ts : List Token) (xs : List Expr) : Prop where
  /-- The last token is no power, so it does not matter what follows. -/
  ends : ∀ rest, signedPowers (ts ++ rest) = signedPowers ts ++ signedPowers rest
  each : List.Forall₂ P (signedPowers ts) xs

namespace Marks

variable {P Q : Bool → Expr → Prop} {ts us : List Token} {xs ys : List Expr}

theorem mono (h : Marks P ts xs) (hPQ : ∀ b x, P b x → Q b x) : Marks Q ts xs :=
  ⟨h.ends, h.each.imp hPQ⟩

theorem nil : Marks P [] [] := ⟨fun _ => rfl, .nil⟩

theorem append (hts : Marks P ts xs) (hus : Marks P us ys) : Marks P (ts ++ us) (xs ++ ys) where
  ends rest := by rw [List.append_assoc, hts.ends, hus.ends, hts.ends, List.append_assoc]
  each := by
    rw [hts.ends]
    exact List.rel_append hts.each hus.each

theorem cons {t : Token} (ht : t ≠ .op .pow) (h : Marks P ts xs) : Marks P (t :: ts) xs where
  ends rest := by
    rw [List.cons_append, signedPowers_cons ht, signedPowers_cons ht, h.ends]
  each := by
    rw [signedPowers_cons ht]
    exact h.each

theorem enclose (h : Marks P ts xs) (needed : Bool) : Marks P (Token.enclose needed ts) xs := by
  cases needed with
  | false => exact h
  | true =>
      have := (h.append (nil.cons (t := .rpar) (by simp))).cons (t := .lpar) (by simp)
      rwa [List.append_nil] at this

/-- Two operands and their operator. If it is a power, the property has to hold of the right one. -/
theorem bin (hts : Marks P ts xs) (op : BinOp) (hus : Marks P us ys) (hne : us ≠ []) {b : Expr}
    (hb : op = .pow → P (decide (us.head? = some (.op .sub))) b) :
    Marks P (ts ++ .op op :: us) (xs ++ (if op = .pow then [b] else []) ++ ys) := by
  rw [List.append_assoc]
  refine hts.append ?_
  by_cases hop : op = .pow
  · subst hop
    obtain ⟨u, us, rfl⟩ := List.exists_cons_of_ne_nil hne
    exact {
      ends := fun rest => by
        rw [List.cons_append, signedPowers_pow, signedPowers_pow, hus.ends]
        rfl
      each := by
        rw [signedPowers_pow, if_pos rfl]
        exact .cons (hb rfl) hus.each }
  · rw [if_neg hop]
    exact hus.cons (by simpa using hop)

end Marks

/-! ## A minus sign after a power makes an opposite -/

/-- If a minus sign follows a power, its exponent is an opposite. -/
def OppositeIfSigned (signed : Bool) (x : Expr) : Prop := signed = true → ∃ d, x = .neg d

/-- A signed phrase that begins with a minus sign is an opposite. -/
theorem Phrase.opposite_of_signed (b : Phrase .signed) :
    OppositeIfSigned (decide (b.tokens.head? = some (.op .sub))) b.tree := by
  intro h
  have hhead : b.tokens.head? = some (.op .sub) := of_decide_eq_true h
  cases b with
  | ofPower p =>
      obtain ⟨ts, hts⟩ := List.head?_eq_some_iff.mp hhead
      exact absurd ((List.append_nil _).trans hts) (p.head_ne_op (by decide) _ _ _)
  | plus p => simp [tokens] at hhead
  | minus p => exact ⟨p.tree, rfl⟩

mutual

/-- The powers of a phrase are those of its tree, in order. -/
theorem Phrase.marks : ∀ {k : Rank} (q : Phrase k), Marks OppositeIfSigned q.tokens q.tree.exponents
  | _, .num v => Marks.nil.cons (by simp)
  | _, .name x _ => Marks.nil.cons (by simp)
  | _, .group s => s.marks.enclose true
  | _, .call f args _ => (args.marks.enclose true).cons (by simp)
  | _, .ofAtom a => a.marks
  | _, .pow a b => a.marks.bin .pow b.marks b.tokens_ne_nil fun _ => b.opposite_of_signed
  | _, .ofPower p => p.marks
  | _, .plus p => p.marks.cons (by simp)
  | _, .minus p => p.marks.cons (by simp)
  | _, .ofSigned s => s.marks
  | _, .mul op scales p s => p.marks.bin op s.marks s.tokens_ne_nil fun hop => by
      subst hop
      cases scales
  | _, .ofProduct p => p.marks
  | _, .add op adds s p => s.marks.bin op p.marks p.tokens_ne_nil fun hop => by
      subst hop
      cases adds

theorem Arguments.marks : ∀ {n : Nat} (args : Arguments n),
    Marks OppositeIfSigned args.tokens (Expr.exponentsOfAll args.trees)
  | _, .one s => by
      have := s.marks.append Marks.nil
      rwa [List.append_nil] at this
  | _, .more args s => by
      have := args.marks.append (s.marks.cons (t := .comma) (by simp))
      rw [Arguments.trees, Expr.exponentsOfAll_append, Expr.exponentsOfAll, Expr.exponentsOfAll,
        List.append_nil]
      exact this

end

/-! ## The powers of a displayed tree -/

namespace Expr

/-- No minus sign follows a power. -/
def Unsigned (signed : Bool) (_ : Expr) : Prop := signed = false

theorem tokensAt_ne_nil {e : Expr} (h : e.Readable IsPlain) (outer : Nat) :
    e.tokensAt outer ≠ [] := by
  obtain ⟨q, hq, -⟩ := exists_displayed h outer (k := .sum) (.inl rfl)
  rw [← hq]
  exact q.tokens_ne_nil

/-- An exponent is written with its sign between parentheses. -/
theorem unsigned_exponent {b : Expr} (h : b.Readable IsPlain) :
    decide ((b.tokensAt (rightTightness .pow)).head? = some (.op .sub)) = false := by
  obtain ⟨q, hq, -⟩ := exists_displayed h (rightTightness .pow) (k := .power)
    (.inr (by decide))
  rw [decide_eq_false_iff_not, ← hq]
  intro hhead
  obtain ⟨ts, hts⟩ := List.head?_eq_some_iff.mp hhead
  exact q.head_ne_op (by decide) .sub [] ts (by rw [List.append_nil, hts])

theorem marks_tokensOfAll {P : Bool → Expr → Prop} {args : List Expr}
    (h : ∀ a ∈ args, Marks P (a.tokensAt 0) a.withSigns.exponents) {separator : List Token}
    (hs : Marks P separator []) :
    Marks P (tokensOfAll separator args) (exponentsOfAll (args.map withSigns)) := by
  induction args generalizing separator with
  | nil => exact .nil
  | cons a args ih =>
      have hcomma : Marks P [.comma] [] := Marks.nil.cons (by simp)
      exact (hs.append (h a (.head _))).append (ih (fun b hb => h b (.tail _ hb)) hcomma)

/-- Arguments with some other tokens among them. -/
theorem marks_arguments {P : Bool → Expr → Prop} {front rest : List Expr} {ts : List Token}
    {xs : List Expr} (hfront : ∀ a ∈ front, Marks P (a.tokensAt 0) a.withSigns.exponents)
    (hts : Marks P ts xs) (hrest : ∀ a ∈ rest, Marks P (a.tokensAt 0) a.withSigns.exponents) :
    Marks P (tokensOfAll [] front ++ gap [] [.comma] front ++ ts ++ tokensOfAll [.comma] rest)
      (exponentsOfAll (front.map withSigns) ++ xs ++ exponentsOfAll (rest.map withSigns)) := by
  have hcomma : Marks P [.comma] [] := Marks.nil.cons (by simp)
  have hgap : Marks P (gap [] [.comma] front) [] := by
    unfold gap
    split
    · exact .nil
    · exact hcomma
  have hbefore := (marks_tokensOfAll hfront .nil).append hgap
  rw [List.append_nil] at hbefore
  exact (hbefore.append hts).append (marks_tokensOfAll hrest hcomma)

theorem marks_tokensAt {e : Expr} (h : e.Readable IsPlain) (outer : Nat) :
    Marks Unsigned (e.tokensAt outer) e.withSigns.exponents := by
  induction h generalizing outer with
  | @num v hv =>
      have hnumber : Marks Unsigned (Token.ofNumber v) [] := by
        rw [Token.ofNumber, if_pos hv.1]
        split
        · exact (Marks.nil.cons (by simp)).cons (by simp)
        · exact Marks.nil.cons (by simp)
      have hnone : (num v).withSigns.exponents = [] := by
        rw [withSigns]
        split <;> rfl
      rw [hnone]
      exact hnumber.enclose _
  | var spelled free => exact (Marks.nil.cons (by simp)).enclose _
  | neg he ih => exact ((ih signedTightness).cons (by simp)).enclose _
  | @bin op a b ha hb iha ihb =>
      refine ((iha _).bin op (ihb _) (tokensAt_ne_nil hb _) fun hop => ?_).enclose _
      subst hop
      exact unsigned_exponent hb
  | @call f args accepted hargs ih =>
      have hall := marks_tokensOfAll (fun a ha => ih a ha 0) .nil
      rw [withSigns, exponents, withSignsAll_eq_map]
      exact ((hall.enclose true).cons (by simp)).enclose _

/-! ## The powers around a place -/

namespace Context

variable {C : Context} {c : Expr}

/-- If a minus sign follows a power and its exponent is an opposite, it is the exponent at the open
place. -/
def SignedHere (C : Context) (c : Expr) (signed : Bool) (x : Expr) : Prop :=
  signed = true → (∃ d, x = .neg d) → C.IsExponent ∧ x = c.withSigns

theorem signedHere_of_unsigned {signed : Bool} {x : Expr} (h : Unsigned signed x) :
    C.SignedHere c signed x := by
  rintro rfl
  cases h

/-- What holds around an open place holds further out. -/
theorem marks_deepen (C' : Context) {ts : List Token} {xs : List Expr}
    (hm : Marks (C.SignedHere c) ts xs) (h : C.IsExponent → C'.IsExponent) :
    Marks (C'.SignedHere c) ts xs :=
  hm.mono fun _ _ hx hs hd => ⟨h (hx hs hd).1, (hx hs hd).2⟩

/-- Around a tree that is not at the open place itself, an opposite still has its parentheses. -/
theorem not_neg_of_signed (h : C ≠ .hole) {ts : List Token}
    (hhead : (C.tokens (rightTightness .pow) ts).head? = some (.op .sub)) :
    ¬ ∃ d, (C.plug c).withSigns = .neg d := by
  rintro ⟨d, hd⟩
  cases C with
  | hole => exact h rfl
  | neg C =>
      have hneeded : Operator.neg.tightness < rightTightness .pow := by decide
      rw [tokens, decide_eq_true hneeded] at hhead
      simp [Token.enclose] at hhead
  | _ => simp [plug, withSigns] at hd

/-- The powers in the text of a tree with a part of it written without its parentheses: where a minus
sign follows a power whose exponent is an opposite, the part is that exponent. -/
theorem marks_tokens (h : (C.plug c).Readable IsPlain) (outer : Nat) :
    Marks (C.SignedHere c) (C.tokens outer (c.tokensAt 0)) (C.plug c).withSigns.exponents := by
  have hne := tokensAt_ne_nil (readable_of_plug h) 0
  -- all that the printer writes around the part has no sign after a power
  have hout : ∀ (C : Context) {e : Expr}, e.Readable IsPlain → ∀ outer,
      Marks (C.SignedHere c) (e.tokensAt outer) e.withSigns.exponents := fun C e he outer =>
    (marks_tokensAt he outer).mono fun _ _ => signedHere_of_unsigned
  induction C generalizing outer with
  | hole => exact hout .hole h 0
  | neg C ih =>
      cases h with
      | neg he =>
          have hin := marks_deepen (.neg C) (ih he signedTightness) .neg
          exact (hin.cons (by simp)).enclose _
  | left op C b ih =>
      cases h with
      | bin ha hb =>
          have hin := marks_deepen (.left op C b) (ih ha (leftTightness op)) .left
          refine (hin.bin op (hout _ hb _) (tokensAt_ne_nil hb _) fun hop => ?_).enclose _
          subst hop
          exact signedHere_of_unsigned (unsigned_exponent hb)
  | right op a C ih =>
      cases h with
      | bin ha hb =>
          have hin := marks_deepen (.right op a C) (ih hb (rightTightness op)) .right
          refine ((hout _ ha _).bin op hin (C.tokens_ne_nil _ hne) fun hop => ?_).enclose _
          subst hop
          intro hs hd
          -- the exponent of this very power is the part itself, or has the part somewhere in it
          by_cases hC : C = .hole
          · subst hC
            exact ⟨.here a, rfl⟩
          · exact absurd hd (not_neg_of_signed hC (of_decide_eq_true hs))
  | argument f front C rest ih =>
      cases h with
      | call accepted hargs =>
          have hin := marks_deepen (.argument f front C rest) (ih (hargs _ (by simp)) 0) .argument
          have hall := marks_arguments
            (fun a ha => hout (.argument f front C rest) (hargs a (List.mem_append_left _ ha)) 0)
            hin (fun a ha => hout _ (hargs a (List.mem_append_right _ (.tail _ ha))) 0)
          rw [plug, withSigns, exponents, withSignsAll_eq_map, List.map_append, List.map_cons,
            exponentsOfAll_append, exponentsOfAll, ← List.append_assoc]
          exact ((hall.enclose true).cons (by simp)).enclose _

end Context

end Expr

end Reckon
