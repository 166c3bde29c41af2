import Reckon.Proofs.Display.Pairs
import Reckon.Proofs.Display.Powers

/-!
# The parentheses that a displayed tree needs

If a pair of parentheses is taken out of the text of a tree, the text is read as something else or
not at all, unless the pair is around a signed exponent (`parentheses_minimal`). The grammar takes a
sign right after `^`, and the printer puts it between parentheses all the same.

Whether a pair is needed depends on all that is around it, so the two readings are not compared node
by node. Instead both are measured against the text. A phrase has no fewer pairs of parentheses than
the printer would write for its tree, except that a `^` with a minus sign after it saves one
(`Phrase.pairs_le`). So if a text with one pair too few is still read as the tree, somewhere in it a
minus sign follows a `^`, and there the tree has an opposite as its exponent. In the text of a tree
with one pair less this can only be where the pair stood.
-/

namespace Reckon

open Token (signedPowers signedPowers_pow signedPowers_cons)

namespace Expr

/-! ## How many pairs of parentheses a tree is written with -/

/-- The pairs of parentheses in the text of a tree at a place, those of the calls too. -/
def pairs (least : Nat) (e : Expr) : Nat := (e.tokensAt least).count .lpar

theorem count_enclose (needed : Bool) (ts : List Token) :
    (Token.enclose needed ts).count .lpar = ts.count .lpar + needed.toNat := by
  cases needed <;> simp [Token.enclose]

theorem pairs_eq (e : Expr) (least : Nat) :
    e.pairs least = e.pairs 0 + (decide (e.tightness < least)).toNat := by
  rw [pairs, tokensAt_eq_enclose, count_enclose, pairs]

theorem pairs_of_tight {e : Expr} {least : Nat} (h : least ≤ e.tightness) :
    e.pairs least = e.pairs 0 := by
  rw [pairs_eq, decide_eq_false (Nat.not_lt.mpr h)]
  rfl

theorem pairs_mono (e : Expr) {m n : Nat} (h : m ≤ n) : e.pairs m ≤ e.pairs n := by
  rw [pairs_eq e m, pairs_eq e n]
  by_cases hm : e.tightness < m
  · rw [decide_eq_true hm, decide_eq_true (Nat.lt_of_lt_of_le hm h)]
  · rw [decide_eq_false hm]
    exact Nat.le_add_right _ _

theorem pairs_le_succ (e : Expr) (least : Nat) : e.pairs least ≤ e.pairs 0 + 1 := by
  rw [pairs_eq]
  exact Nat.add_le_add_left (Bool.toNat_le _) _

theorem pairs_neg (e : Expr) (least : Nat) :
    (neg e).pairs least
      = e.pairs signedTightness + (decide (Operator.neg.tightness < least)).toNat := by
  rw [pairs, tokensAt, count_enclose, List.count_cons_of_ne (by simp)]
  rfl

theorem pairs_bin (op : BinOp) (a b : Expr) {least : Nat}
    (h : least ≤ (Operator.bin op).tightness) :
    (bin op a b).pairs least = a.pairs (leftTightness op) + b.pairs (rightTightness op) := by
  rw [pairs_of_tight (e := bin op a b) h]
  simp [pairs, tokensAt, Token.enclose]

theorem pairs_call (f : Builtin) (args : List Expr) {least : Nat}
    (h : least ≤ Rank.atom.tightness) :
    (call f args).pairs least = (tokensOfAll [] args).count .lpar + 1 := by
  rw [pairs_of_tight (e := call f args) h]
  simp [pairs, tokensAt, Token.enclose]

theorem pairs_last_argument (args : List Expr) (a : Expr) :
    (tokensOfAll [] (args ++ [a])).count .lpar
      = (tokensOfAll [] args).count .lpar + a.pairs 0 := by
  have hgap : (gap [] [.comma] args : List Token).count .lpar = 0 := by
    unfold gap
    split <;> rfl
  rw [tokensOfAll_append, List.count_append, List.count_append, List.count_append, hgap]
  simp [tokensOfAll, pairs]

theorem pairs_num {v : Float} (h : ¬ v < 0) {least : Nat} (hle : least ≤ Rank.atom.tightness) :
    (num v).pairs least = 0 := by
  rw [pairs_of_tight (by rw [tightness, if_neg h]; exact hle)]
  simp only [pairs, tokensAt, count_enclose, Token.ofNumber, Nat.not_lt_zero, decide_false]
  split
  · split <;> rfl
  · rfl

end Expr

/-! ## How many pairs of parentheses a phrase has -/

namespace Token

/-- The pairs of parentheses among some tokens, and one more for each power with a minus sign after
it. -/
def allowance (ts : List Token) : Nat := ts.count .lpar + (signedPowers ts).count true

variable {P : Bool → Expr → Prop} {ts us : List Token} {xs : List Expr}

theorem allowance_append (h : Marks P ts xs) (us : List Token) :
    allowance (ts ++ us) = allowance ts + allowance us := by
  simp only [allowance, h.ends, List.count_append]
  omega

theorem allowance_cons {t : Token} (hpow : t ≠ .op .pow) (hlpar : t ≠ .lpar) (ts : List Token) :
    allowance (t :: ts) = allowance ts := by
  rw [allowance, signedPowers_cons hpow, List.count_cons_of_ne hlpar]
  rfl

theorem allowance_group (h : Marks P ts xs) :
    allowance (.lpar :: (ts ++ [.rpar])) = allowance ts + 1 := by
  have hclosed : allowance (ts ++ [.rpar]) = allowance ts := allowance_append h [.rpar]
  rw [← hclosed, allowance, signedPowers_cons (by simp), List.count_cons_self, allowance]
  omega

theorem allowance_pow (ts : List Token) :
    allowance (.op .pow :: ts) = allowance ts + (decide (ts.head? = some (.op .sub))).toNat := by
  rw [allowance, signedPowers_pow, List.count_cons_of_ne (by simp), List.count_cons, allowance]
  cases decide (ts.head? = some (.op .sub)) <;> rfl

theorem allowance_le_op (op : BinOp) (ts : List Token) :
    allowance ts ≤ allowance (.op op :: ts) := by
  by_cases hop : op = .pow
  · subst hop
    rw [allowance_pow]
    exact Nat.le_add_right _ _
  · rw [allowance_cons (by simpa using hop) (by simp)]

end Token

open Token (allowance allowance_append allowance_cons allowance_group allowance_pow
  allowance_le_op)

/-- The operands of a sum stand at places for their ranks. -/
theorem Expr.tightness_of_sum {op : BinOp} (h : op.rank = .sum) :
    leftTightness op = Rank.sum.tightness ∧ rightTightness op = Rank.product.tightness := by
  revert h
  cases op <;> decide

/-- The operands of a product stand at places for their ranks. -/
theorem Expr.tightness_of_product {op : BinOp} (h : op.rank = .product) :
    leftTightness op = Rank.product.tightness ∧ rightTightness op = Rank.signed.tightness := by
  revert h
  cases op <;> decide

theorem Expr.pairs_bin_le {P : Bool → Expr → Prop} {ts us : List Token} {xs : List Expr}
    (hts : Marks P ts xs) {op : BinOp} {a b : Expr} {least : Nat}
    (h : least ≤ (Operator.bin op).tightness) (ha : a.pairs (leftTightness op) ≤ allowance ts)
    (hb : b.pairs (rightTightness op) ≤ allowance (.op op :: us)) :
    (bin op a b).pairs least ≤ allowance (ts ++ .op op :: us) := by
  rw [pairs_bin op a b h, allowance_append hts]
  exact Nat.add_le_add ha hb

/-- An exponent with a minus sign needs no parentheses in a phrase. -/
theorem Expr.pairs_opposite_le {p : Expr} {ts : List Token}
    (h : p.pairs signedTightness ≤ allowance ts) :
    (neg p).pairs (rightTightness .pow) ≤ allowance (.op .pow :: .op .sub :: ts) := by
  have hone : (decide (Operator.neg.tightness < rightTightness .pow)).toNat = 1 := rfl
  rw [pairs_neg, hone, allowance_pow, allowance_cons (by simp) (by simp), List.head?_cons,
    decide_eq_true rfl]
  exact Nat.add_le_add_right h 1

mutual

/-- A phrase has no fewer pairs of parentheses than its tree is written with at a place for phrases
of its rank, if every power with a minus sign after it counts as one more. -/
theorem Phrase.pairs_le : ∀ {k : Rank} (q : Phrase k), q.tree.Readable (fun v => ¬ v < 0) →
    q.tree.pairs k.tightness ≤ allowance q.tokens
  | _, .num v, h => by
      cases h with
      | num hv => exact (Expr.pairs_num hv (Nat.le_refl _)).trans_le (Nat.zero_le _)
  | _, .name x _, _ => Nat.zero_le _
  | _, .group s, h => by
      -- the tree may do without this pair, and it never needs a second one
      have hs := s.pairs_le h
      have hmono := s.tree.pairs_mono (Nat.zero_le Rank.sum.tightness)
      have hsucc := s.tree.pairs_le_succ Rank.atom.tightness
      rw [Phrase.tree, Phrase.tokens, allowance_group s.marks]
      omega
  | _, .call f args _, h => by
      cases h with
      | call accepted hargs =>
          have hall := args.pairs_le hargs
          rw [Phrase.tree, Phrase.tokens, allowance_cons (by simp) (by simp),
            allowance_group args.marks, Expr.pairs_call f args.trees (Nat.le_refl _)]
          exact Nat.add_le_add_right hall 1
  | _, .ofAtom a, h => (Expr.pairs_mono _ (by decide)).trans (a.pairs_le h)
  | _, .pow a (.ofPower p), h => by
      cases h with
      | bin ha hb =>
          exact Expr.pairs_bin_le a.marks (Nat.le_refl _) (a.pairs_le ha)
            ((p.pairs_le hb).trans (allowance_le_op .pow p.tokens))
  | _, .pow a (.plus p), h => by
      cases h with
      | bin ha hb =>
          have hp := (p.pairs_le hb).trans ((allowance_le_op .add p.tokens).trans
            (allowance_le_op .pow _))
          exact Expr.pairs_bin_le a.marks (Nat.le_refl _) (a.pairs_le ha) hp
  | _, .pow a (.minus p), h => by
      cases h with
      | bin ha hb =>
          -- the only place where the printer writes a pair more than the phrase needs to have
          cases hb with
          | neg hp =>
              exact Expr.pairs_bin_le a.marks (Nat.le_refl _) (a.pairs_le ha)
                (Expr.pairs_opposite_le (p.pairs_le hp))
  | _, .ofPower p, h => (Expr.pairs_mono _ (by decide)).trans (p.pairs_le h)
  | _, .plus p, h =>
      (Expr.pairs_mono p.tree (by decide)).trans ((p.pairs_le h).trans (allowance_le_op .add _))
  | _, .minus p, h => by
      cases h with
      | neg hp =>
          rw [Phrase.tree, Expr.pairs_neg]
          exact (p.pairs_le hp).trans (allowance_le_op .sub _)
  | _, .ofSigned s, h => (Expr.pairs_mono _ (by decide)).trans (s.pairs_le h)
  | _, .mul op scales p s, h => by
      obtain ⟨hleft, hright⟩ := Expr.tightness_of_product scales
      cases h with
      | bin hp hs =>
          refine Expr.pairs_bin_le p.marks ?_ (hleft ▸ p.pairs_le hp)
            (hright ▸ (s.pairs_le hs).trans (allowance_le_op op s.tokens))
          rw [← BinOp.tightness_rank, scales]
  | _, .ofProduct p, h => (Expr.pairs_mono _ (by decide)).trans (p.pairs_le h)
  | _, .add op adds s p, h => by
      obtain ⟨hleft, hright⟩ := Expr.tightness_of_sum adds
      cases h with
      | bin hs hp =>
          refine Expr.pairs_bin_le s.marks ?_ (hleft ▸ s.pairs_le hs)
            (hright ▸ (p.pairs_le hp).trans (allowance_le_op op p.tokens))
          rw [← BinOp.tightness_rank, adds]

theorem Arguments.pairs_le : ∀ {n : Nat} (args : Arguments n),
    (∀ e ∈ args.trees, e.Readable fun v => ¬ v < 0) →
    (Expr.tokensOfAll [] args.trees).count .lpar ≤ allowance args.tokens
  | _, .one s, h => by
      have hs := (s.tree.pairs_mono (Nat.zero_le _)).trans (s.pairs_le (h _ (.head _)))
      exact (Expr.pairs_last_argument [] s.tree).trans_le ((Nat.zero_add _).trans_le hs)
  | _, .more args s, h => by
      have hargs := args.pairs_le fun e he => h e (List.mem_append_left _ he)
      have hs := (s.tree.pairs_mono (Nat.zero_le _)).trans
        (s.pairs_le (h _ (List.mem_append_right _ (.head _))))
      rw [Arguments.trees, Expr.pairs_last_argument, Arguments.tokens, allowance_append args.marks,
        allowance_cons (by simp) (by simp)]
      exact Nat.add_le_add hargs hs

end

namespace Expr

/-! ## A tree is displayed as what it is read as -/

theorem not_abs_lt_zero {v : Float} (h : v.isFinite = true) : ¬ v.abs < 0 := by
  rw [Number.lt_zero_iff (Number.isFinite_abs h), Number.isSigned_abs h]
  simp

theorem readable_withSigns {e : Expr} (h : e.Readable IsPlain) :
    e.withSigns.Readable fun v => ¬ v < 0 := by
  induction h with
  | @num v hv =>
      rw [withSigns]
      split
      · exact .neg (.num (not_abs_lt_zero hv.1))
      · exact .num ‹_›
  | var spelled free => exact .var spelled free
  | neg he ih => exact .neg ih
  | bin ha hb iha ihb => exact .bin iha ihb
  | @call f args accepted hargs ih =>
      rw [withSigns, withSignsAll_eq_map]
      refine .call (by rw [List.length_map]; exact accepted) fun a ha => ?_
      obtain ⟨b, hb, rfl⟩ := List.mem_map.mp ha
      exact ih b hb

theorem tokensOfAll_congr {args : List Expr} {g : Expr → Expr}
    (h : ∀ a ∈ args, (g a).tokensAt 0 = a.tokensAt 0) (separator : List Token) :
    tokensOfAll separator (args.map g) = tokensOfAll separator args := by
  induction args generalizing separator with
  | nil => rfl
  | cons a args ih =>
      rw [List.map_cons, tokensOfAll, tokensOfAll, h a (.head _), ih fun b hb => h b (.tail _ hb)]

theorem tokensAt_withSigns {e : Expr} (h : e.Readable IsPlain) (least : Nat) :
    e.withSigns.tokensAt least = e.tokensAt least := by
  induction h generalizing least with
  | @num v hv =>
      rw [withSigns]
      split
      · rename_i hlt
        -- a negative literal is written as its magnitude with a minus sign in front
        have hsigned := ((Number.lt_zero_iff hv.1).1 hlt).1
        have hfin := Number.isFinite_abs hv.1
        have hunsigned := Number.isSigned_abs hv.1
        have hmagnitude : Token.ofNumber v.abs = [.num v.abs] := by
          rw [Token.ofNumber, if_pos hfin, hunsigned, Number.abs_of_not_isSigned hfin hunsigned]
          rfl
        have habs : (num v.abs).tokensAt signedTightness = [.num v.abs] := by
          rw [tokensAt, tightness, if_neg (not_abs_lt_zero hv.1), hmagnitude]
          rfl
        have htight : (num v).tightness = (neg (num v.abs)).tightness := if_pos hlt
        have hneg : (neg (num v.abs)).tokensAt 0
            = .op .sub :: (num v.abs).tokensAt signedTightness := rfl
        have hnum : (num v).tokensAt 0 = Token.ofNumber v := rfl
        rw [tokensAt_eq_enclose (neg _), tokensAt_eq_enclose (num v), htight, hneg, habs, hnum,
          Token.ofNumber, if_pos hv.1, if_pos hsigned]
      · rfl
  | var spelled free => rfl
  | neg he ih => rw [withSigns, tokensAt, ih, tokensAt]; rfl
  | bin ha hb iha ihb => rw [withSigns, tokensAt, iha, ihb, tokensAt]; rfl
  | @call f args accepted hargs ih =>
      have hargs := tokensOfAll_congr (fun a ha => ih a ha 0) []
      rw [withSigns, withSignsAll_eq_map, tokensAt, hargs, tokensAt]
      rfl

/-! ## Which parentheses are needed -/

/-- An opposite or a negative literal. -/
inductive IsSigned : Expr → Prop
  | neg (e : Expr) : IsSigned (neg e)
  | num {v : Float} (h : v < 0) : IsSigned (num v)

theorem isSigned_iff (e : Expr) : e.IsSigned ↔ ∃ d, e.withSigns = neg d := by
  constructor
  · rintro (e | h)
    · exact ⟨_, rfl⟩
    · exact ⟨_, if_pos h⟩
  · rintro ⟨d, hd⟩
    cases e with
    | num v =>
        rw [withSigns] at hd
        split at hd
        · exact .num ‹_›
        · cases hd
    | neg e => exact .neg e
    | var x => cases hd
    | bin op a b => cases hd
    | call f args => cases hd

theorem IsSigned.tightness {e : Expr} (h : e.IsSigned) : e.tightness = Rank.signed.tightness := by
  cases h with
  | neg e => rfl
  | num h => exact if_pos h

theorem Context.IsExponent.rank {C : Context} (h : C.IsExponent) (outer : Rank) :
    C.rank outer = .signed := by
  induction h generalizing outer with
  | here a => rfl
  | neg h ih => exact ih _
  | left h ih => exact ih _
  | right h ih => exact ih _
  | argument h ih => exact ih _

/-- Parentheses at the open place are one more pair in the whole. -/
theorem Context.count_tokens (C : Context) (outer : Nat) (ts : List Token) :
    (C.tokens outer (.lpar :: (ts ++ [.rpar]))).count .lpar
      = (C.tokens outer ts).count .lpar + 1 := by
  induction C generalizing outer with
  | hole => simp [tokens]
  | _ =>
      rename_i ih
      simp only [tokens, count_enclose, List.count_append, List.count_cons, ih]
      omega

section

variable {C : Context} {c : Expr} (h : (C.plug c).Readable IsPlain)

include h

/-- Around a signed exponent the parentheses may go. -/
theorem exists_phrase_of_exponent (hC : C.IsExponent) (hc : c.IsSigned) :
    ∃ q : Phrase .sum, q.tokens = C.tokens 0 (c.tokensAt 0) ∧ q.tree = (C.plug c).withSigns := by
  have hrank := hC.rank .sum
  obtain ⟨q, hq, hq'⟩ : ∃ q : Phrase (C.rank .sum), q.tokens = c.tokensAt 0
      ∧ q.tree = c.withSigns := by
    have hbare : c.tokensAt Rank.signed.tightness = c.tokensAt 0 := by
      rw [tokensAt_eq_enclose, hc.tightness]
      rfl
    rw [hrank, ← hbare]
    exact exists_displayed (Context.readable_of_plug h) _ (.inr (Nat.le_refl _))
  rw [← hq]
  exact exists_phrase h 0 (.inl rfl) q hq'

/-- If the parentheses around a place may go, it is a signed exponent. -/
theorem exponent_of_phrase (hloose : c.tightness < C.least 0) {q : Phrase .sum}
    (hq : q.tokens = C.tokens 0 (c.tokensAt 0)) (hq' : q.tree = (C.plug c).withSigns) :
    C.IsExponent ∧ c.IsSigned := by
  have htokens : (C.plug c).tokensAt 0 = C.tokens 0 (.lpar :: (c.tokensAt 0 ++ [.rpar])) := by
    rw [tokensAt_plug, tokensAt_eq_enclose, decide_eq_true hloose]
    rfl
  -- one pair too few is only enough if a minus sign follows a power
  have hpowers : 0 < (signedPowers q.tokens).count true := by
    have hle := q.pairs_le (by rw [hq']; exact readable_withSigns h)
    have hmono := q.tree.pairs_mono (Nat.zero_le Rank.sum.tightness)
    have hpairs : q.tree.pairs 0 = q.tokens.count .lpar + 1 := by
      rw [hq', pairs, tokensAt_withSigns h, htokens, Context.count_tokens, hq]
    unfold allowance at hle
    omega
  have hphrase := q.marks.each
  have hplace := (Context.marks_tokens h 0).each
  rw [← hq, ← hq'] at hplace
  -- its exponent in the phrase is an opposite, so it is the one at the open place
  obtain ⟨i, hi, htrue⟩ := List.getElem_of_mem (List.count_pos_iff.mp hpowers)
  have hi' : i < q.tree.exponents.length := hphrase.length_eq ▸ hi
  obtain ⟨d, hd⟩ := hphrase.get hi hi' htrue
  obtain ⟨hexponent, hc⟩ := hplace.get hi hi' htrue ⟨d, hd⟩
  exact ⟨hexponent, (isSigned_iff c).mpr ⟨d, hc.symm.trans hd⟩⟩

end

/-- What a text is read as, whatever blanks stand in it. -/
def read (s : String) : Except Fault Expr := (Parsed.ofText (Text.compact s)).map (·.tree)

theorem read_eq_ok_iff {s : String} {ts : List Token} (h : Token.Cuts s ts) (e : Expr) :
    read s = .ok e ↔ ∃ q : Phrase .sum, q.tokens = ts ∧ q.tree = e := by
  constructor
  · intro hread
    unfold read at hread
    cases hp : Parsed.ofText (Text.compact s) with
    | error f =>
        rw [hp] at hread
        cases hread
    | ok p =>
        rw [hp] at hread
        obtain ⟨hscan, q, hq, htree, -⟩ := Parsed.stages hp
        obtain rfl := Except.ok.inj (h.scan.symm.trans hscan)
        exact ⟨q, hq, htree.symm.trans (Except.ok.inj hread)⟩
  · rintro ⟨q, rfl, rfl⟩
    rw [read, Parsed.ofText_eq h.scan]
    rfl

/-- **Display writes no useless parentheses but around signed exponents.** Every pair of matching
parentheses in the text of a tree, unless it is the argument list of a call, is around a part of the
tree; and if it is taken out of the text, the text is still read as the same tree if and only if the
part is the exponent of a power and an opposite or a negative literal. -/
theorem parentheses_minimal {e : Expr}
    (h : e.Readable fun v => v.isFinite = true ∧ v ≠ -0) {before inside after : List Char}
    (hpair : Text.Group e.render.toList before inside after) :
    read e.render = .ok e.withSigns
    ∧ (∃ C c, Context.plug c C = e ∧ C.Encloses 0 c before inside after)
    ∧ ∀ C c, Context.plug c C = e → C.Encloses 0 c before inside after →
      (read (String.ofList (before ++ inside ++ after)) = read e.render
        ↔ C.IsExponent ∧ c.IsSigned) := by
  have hcuts : Token.Cuts e.render (e.tokensAt 0) := by
    rw [render_eq_text]
    exact Token.cuts_textAt (h.mono fun v hv => .inl hv.1) 0
  have hread : read e.render = .ok e.withSigns :=
    (read_eq_ok_iff hcuts _).mpr (exists_displayed h 0 (.inl rfl))
  refine ⟨hread, ?_, ?_⟩
  · rw [render_eq_text] at hpair
    exact located h 0 before inside after hpair
  · rintro C c rfl henc
    -- what is left of the text is the context around the bare text of the part
    have hshort : String.ofList (before ++ inside ++ after) = C.text 0 (c.textAt 0) := by
      rw [← henc.inside, ← henc.around, String.ofList_toList]
    have hcut : Token.Cuts (C.text 0 (c.textAt 0)) (C.tokens 0 (c.tokensAt 0)) :=
      cuts_text (h.mono fun v hv => .inl hv.1)
        (Token.cuts_textAt ((Context.readable_of_plug h).mono fun v hv => .inl hv.1) 0) 0
    rw [hread, hshort, read_eq_ok_iff hcut]
    exact ⟨fun ⟨q, hq, hq'⟩ => exponent_of_phrase h henc.loose hq hq',
      fun ⟨hC, hc⟩ => exists_phrase_of_exponent h hC hc⟩

/-- A signed exponent and a factor: the first pair may go, and the second may not. -/
theorem parentheses_minimal_of_power :
    ∃ e : Expr, (e.Readable fun v => v.isFinite = true ∧ v ≠ -0)
      ∧ e.render = "2^(-x) * (y + 1)"
      ∧ Text.Group e.render.toList "2^".toList "-x".toList " * (y + 1)".toList
      ∧ read "2^-x * (y + 1)" = read e.render
      ∧ Text.Group e.render.toList "2^(-x) * ".toList "y + 1".toList []
      ∧ read "2^(-x) * y + 1" ≠ read e.render := by
  let power : Expr := .bin .pow (.num 2) (.neg (.var "x"))
  let sum : Expr := .bin .add (.var "y") (.num 1)
  have hread : (bin .mul power sum).Readable fun v => v.isFinite = true ∧ v ≠ -0 :=
    .bin (.bin (.num (by decide +kernel)) (.neg (.var (Token.isName_of_chars rfl) (by decide))))
      (.bin (.var (Token.isName_of_chars rfl) (by decide)) (.num (by decide +kernel)))
  have hrender : (bin .mul power sum).render = "2^(-x) * (y + 1)" := by decide +kernel
  have hpower : Text.Group (bin .mul power sum).render.toList "2^".toList "-x".toList
      " * (y + 1)".toList :=
    ⟨by rw [hrender]; decide, isDyck_nil, fun f => by cases f <;> decide⟩
  have hsum : Text.Group (bin .mul power sum).render.toList "2^(-x) * ".toList "y + 1".toList [] :=
    ⟨by rw [hrender]; decide, isDyck_nil, fun f => by cases f <;> decide⟩
  have hexponent : (Context.left .mul (.right .pow (.num 2) .hole) sum).Encloses 0 (.neg (.var "x"))
      "2^".toList "-x".toList " * (y + 1)".toList := by
    refine ⟨by decide, fun w => ?_, by decide⟩
    have hbase : (num 2).textAt (leftTightness .pow) = "2" := by decide +kernel
    have hfactor : sum.textAt (rightTightness .mul) = "(y + 1)" := by decide +kernel
    change (((num 2).textAt (leftTightness .pow) ++ "^" ++ w) ++ " * "
      ++ sum.textAt (rightTightness .mul)).toList = _
    simp [hbase, hfactor]
  have hfactor : (Context.right .mul power .hole).Encloses 0 sum "2^(-x) * ".toList "y + 1".toList
      [] := by
    refine ⟨by decide, fun w => ?_, by decide +kernel⟩
    have hpower : power.textAt (leftTightness .mul) = "2^(-x)" := by decide +kernel
    change (power.textAt (leftTightness .mul) ++ " * " ++ w).toList = _
    simp [hpower]
  refine ⟨_, hread, hrender, hpower, ?_, hsum, ?_⟩
  · exact ((parentheses_minimal hread hpower).2.2 _ _ rfl hexponent).mpr ⟨.left (.here _), .neg _⟩
  · intro hsame
    obtain ⟨-, hsigned⟩ := ((parentheses_minimal hread hsum).2.2 _ _ rfl hfactor).mp hsame
    obtain ⟨d, hd⟩ := (isSigned_iff sum).mp hsigned
    cases hd

end Expr

end Reckon
