import Reckon.Proofs.Grammar.Accepted
import Reckon.Proofs.Grammar.Unambiguous

/-!
# Nothing but phrases is read

The other direction: a text that the reader goes through is the text of a phrase, and the listing
is that of its tree.

The invariant is a derivation that is not finished yet. `Awaits` says what the tokens read so far
are when an operand is due: phrases that are complete, each with the operator or the open
parenthesis after it that is pending now. `Reached` adds what the last token says. The one thing
that looks at more than the end of the tokens is the listing of pending operators, and
`Awaits.release` says what it does: the value read last becomes the right operand of the innermost
operator, what they make becomes the right operand of the next one, and so on, until the phrase is
as loose as the next token lets it be.
-/

namespace Reckon

/-! ## What a token does

One lemma for each way of going on, with all that it asks for. -/

namespace Reading

variable {r r' : Reading}

/-- What starts an operand is refused after a value alone. -/
theorem of_checkOperand_map {t : Token} {f : Unit → Reading}
    (h : (r.checkOperand t).map f = .ok r') : r.last ≠ .value ∧ f () = r' := by
  unfold checkOperand at h
  split at h
  · cases h
  · exact ⟨‹_›, Except.ok.inj h⟩

theorem of_checkOperand_bind {t : Token} {f : Unit → Except Fault Reading}
    (h : (r.checkOperand t).bind f = .ok r') : r.last ≠ .value ∧ f () = .ok r' := by
  unfold checkOperand at h
  split at h
  · cases h
  · exact ⟨‹_›, h⟩

/-- A name is a function's exactly if a parenthesis comes next. -/
theorem readName_cases {x : String} {called : Bool} (h : r.readName x called = .ok r') :
    (∃ f, Builtin.ofName? x = some f ∧ called = true ∧ r' = { r with last := .callee f })
    ∨ Builtin.ofName? x = none ∧ r' = r.readOperand (.var x) := by
  unfold readName at h
  split at h
  · split at h
    · exact .inl ⟨_, ‹_›, ‹_›, (Except.ok.inj h).symm⟩
    · cases h
  · split at h
    · cases h
    · exact .inr ⟨‹_›, (Except.ok.inj h).symm⟩

theorem readComma_cases (h : r.readComma = .ok r') :
    r.last = .value ∧ ∃ f n pending listed, r.releaseAll = (.call f n :: pending, listed)
      ∧ r' = ⟨listed, .call f (n + 1) :: pending, .opening⟩ := by
  unfold readComma at h
  split at h
  · cases h
  · rename_i hv
    refine ⟨Decidable.not_not.mp hv, ?_⟩
    split at h
    · exact ⟨_, _, _, _, ‹_›, (Except.ok.inj h).symm⟩
    · cases h

theorem readClosing_cases (h : r.readClosing = .ok r') :
    r.last = .value
    ∧ ((∃ pending listed, r.releaseAll = (.group :: pending, listed)
          ∧ r' = ⟨listed, pending, .value⟩)
      ∨ ∃ f n pending listed, r.releaseAll = (.call f n :: pending, listed)
          ∧ f.arity.accepts n = true ∧ r' = ⟨.call f n :: listed, pending, .value⟩) := by
  unfold readClosing at h
  split at h
  · split at h <;> cases h
  · rename_i hv
    refine ⟨Decidable.not_not.mp hv, ?_⟩
    split at h
    · exact .inl ⟨_, _, ‹_›, (Except.ok.inj h).symm⟩
    · split at h
      · exact .inr ⟨_, _, _, _, ‹_›, ‹_›, (Except.ok.inj h).symm⟩
      · cases h
    · cases h

theorem readSign_cases {op : BinOp} (h : r.readSign op = .ok r') :
    r.last ≠ .sign
    ∧ r' = ⟨r.listed, if op = .sub then .op .neg :: r.pending else r.pending, .sign⟩ := by
  unfold readSign at h
  split at h
  · cases h
  · exact ⟨‹_›, (Except.ok.inj h).symm⟩

end Reading

/-! ## Unfinished derivations -/

/-- `Awaits k ts pending listed`: the tokens `ts` have been read, and a phrase that may be as loose
as `k` comes next. -/
inductive Awaits : Rank → List Token → List Pending → List Item → Prop where
  | start : Awaits .sum [] [] []
  | group {k : Rank} {ts : List Token} {pending : List Pending} {listed : List Item} :
      Awaits k ts pending listed → Awaits .sum (ts ++ [.lpar]) (.group :: pending) listed
  | call {k : Rank} {ts : List Token} {pending : List Pending} {listed : List Item} (f : Builtin) :
      Awaits k ts pending listed →
      Awaits .sum (ts ++ [.ident f.name, .lpar]) (.call f 1 :: pending) listed
  | comma {k : Rank} {ts : List Token} {pending : List Pending} {listed : List Item} (f : Builtin)
      {n : Nat} (args : Arguments n) :
      Awaits k ts pending listed →
      Awaits .sum (ts ++ .ident f.name :: .lpar :: (args.tokens ++ [.comma]))
        (.call f (n + 1) :: pending) ((Expr.itemsOfAll args.trees).reverse ++ listed)
  | operand {k : Rank} {ts : List Token} {pending : List Pending} {listed : List Item} (op : BinOp)
      (a : Phrase op.leftRank) :
      Awaits k ts pending listed → k.tightness ≤ op.rank.tightness →
      Awaits op.rightRank (ts ++ (a.tokens ++ [.op op])) (.op (.bin op) :: pending)
        (a.tree.items.reverse ++ listed)
  | minus {k : Rank} {ts : List Token} {pending : List Pending} {listed : List Item} :
      Awaits k ts pending listed → k.tightness ≤ Rank.signed.tightness →
      Awaits .power (ts ++ [.op .sub]) (.op .neg :: pending) listed
  | plus {k : Rank} {ts : List Token} {pending : List Pending} {listed : List Item} :
      Awaits k ts pending listed → k.tightness ≤ Rank.signed.tightness →
      Awaits .power (ts ++ [.op .add]) pending listed

/-- `Reached ts rest r`: the state `r` is explained by the tokens `ts` read so far, before the
tokens `rest`. -/
inductive Reached : List Token → List Token → Reading → Prop where
  | opening {k : Rank} {ts rest : List Token} {pending : List Pending} {listed : List Item} :
      Awaits k ts pending listed → k.tightness ≤ Rank.signed.tightness →
      Reached ts rest ⟨listed, pending, .opening⟩
  | sign {ts rest : List Token} {pending : List Pending} {listed : List Item} :
      Awaits .power ts pending listed → Reached ts rest ⟨listed, pending, .sign⟩
  | callee {k : Rank} {ts rest : List Token} {pending : List Pending} {listed : List Item}
      (f : Builtin) :
      Awaits k ts pending listed →
      Reached (ts ++ [.ident f.name]) (.lpar :: rest) ⟨listed, pending, .callee f⟩
  | value {k : Rank} {ts rest : List Token} {pending : List Pending} {listed : List Item}
      (a : Phrase .atom) :
      Awaits k ts pending listed →
      Reached (ts ++ a.tokens) rest ⟨a.tree.items.reverse ++ listed, pending, .value⟩

namespace Awaits

variable {k m : Rank} {ts : List Token} {pending : List Pending} {listed : List Item}

/-- No token waits for an atom alone: after a sign a power may come. -/
theorem tightness_le (h : Awaits k ts pending listed) : k.tightness ≤ Rank.power.tightness := by
  cases h with
  | operand op _ _ _ => cases op <;> decide
  | _ => decide

/-- With the operators listed that are at least as tight as `target`, the text ends in a phrase of
that rank. -/
def ReleasesTo (target : Rank) (text : List Token) (pending : List Pending) (listed : List Item) :
    Prop :=
  ∃ (k : Rank) (ts : List Token) (pending' : List Pending) (listed' : List Item)
    (q : Phrase target), Awaits k ts pending' listed' ∧ k.tightness ≤ target.tightness
    ∧ text = ts ++ q.tokens
    ∧ Reading.release (fun o => decide (target.tightness ≤ o.tightness)) pending listed
        = (pending', q.tree.items.reverse ++ listed')

/-- Where the innermost operator is looser than `target`, nothing is listed. -/
theorem releasesTo_of_guards {target : Rank} (h : Awaits k ts pending listed)
    (hk : k.tightness ≤ target.tightness) (hg : Reading.Guards target.tightness pending)
    (q : Phrase m) (ht : target.tightness ≤ m.tightness) :
    ReleasesTo target (ts ++ q.tokens) pending (q.tree.items.reverse ++ listed) := by
  obtain ⟨q', h₁, h₂⟩ := q.exists_loosen ht
  refine ⟨k, ts, pending, listed, q', h, hk, by rw [h₁], ?_⟩
  rw [h₂]
  exact Reading.release_of_stop
    (fun o rest he => decide_eq_false (Nat.not_le.mpr (hg o rest he))) _

/-- **What listing the pending operators does.** A phrase that is read where one is awaited takes in
the operators that are listed, and ends up with the rank `target` that stops the listing. -/
theorem release (h : Awaits k ts pending listed) (target : Rank) (q : Phrase m)
    (hk : k.tightness ≤ m.tightness) (ht : target.tightness ≤ m.tightness)
    (hp : target.tightness ≤ Rank.product.tightness) :
    ReleasesTo target (ts ++ q.tokens) pending (q.tree.items.reverse ++ listed) := by
  have hsum : Rank.sum.tightness ≤ target.tightness := by cases target <;> decide
  induction h generalizing m q with
  | start => exact Awaits.start.releasesTo_of_guards hsum (Reading.guards_nil _) q ht
  | group h _ => exact h.group.releasesTo_of_guards hsum (Reading.guards_group _ _) q ht
  | call f h _ => exact (h.call f).releasesTo_of_guards hsum (Reading.guards_call _ _ _ _) q ht
  | comma f args h _ =>
      exact (h.comma f args).releasesTo_of_guards hsum (Reading.guards_call _ _ _ _) q ht
  | @operand k ts pending listed op a h hop ih =>
      by_cases hdue : target.tightness ≤ (Operator.bin op).tightness
      · -- the operator takes the phrase as its right operand
        obtain ⟨b, h₁, h₂⟩ := q.exists_loosen hk
        obtain ⟨k', ts', pending', listed', q', hw, hk', htok, hrel⟩ :=
          ih (.bin op a b) hop (by rw [op.tightness_rank]; exact hdue)
        refine ⟨k', ts', pending', listed', q', hw, hk', ?_, ?_⟩
        · rw [← htok, ← h₁]; simp
        · rw [← hrel, ← h₂]
          simp [Reading.release, hdue, Expr.items]
      · -- the operator is looser than what comes next and stays pending
        have hright : op.rightRank.tightness ≤ target.tightness := by
          revert hdue hp
          cases op <;> cases target <;> decide
        exact (h.operand op a hop).releasesTo_of_guards hright
          (Reading.guards_op (Nat.not_le.mp hdue)) q ht
  | @minus k ts pending listed h hs ih =>
      -- a sign is tighter than any rank that stops the listing
      obtain ⟨p, h₁, h₂⟩ := q.exists_loosen hk
      obtain ⟨k', ts', pending', listed', q', hw, hk', htok, hrel⟩ :=
        ih (.minus p) hs (Nat.le_trans hp (by decide))
      refine ⟨k', ts', pending', listed', q', hw, hk', ?_, ?_⟩
      · rw [← htok, ← h₁]; simp [Phrase.tokens]
      · have hdue : target.tightness ≤ Operator.neg.tightness := Nat.le_trans hp (by decide)
        rw [← hrel, ← h₂]
        simp [Reading.release, hdue, Phrase.tree, Expr.items]
  | @plus k ts pending listed h hs ih =>
      -- a plus sign is in the text and nowhere else
      obtain ⟨p, h₁, h₂⟩ := q.exists_loosen hk
      obtain ⟨k', ts', pending', listed', q', hw, hk', htok, hrel⟩ :=
        ih (.plus p) hs (Nat.le_trans hp (by decide))
      refine ⟨k', ts', pending', listed', q', hw, hk', ?_, ?_⟩
      · rw [← htok, ← h₁]; simp [Phrase.tokens]
      · rw [← hrel, ← h₂]
        simp [Phrase.tree]

/-- All pending operators are listed: the phrase is a sum, and a sum was awaited before it. -/
theorem releaseAll (h : Awaits k ts pending listed) (q : Phrase m)
    (hk : k.tightness ≤ m.tightness) :
    ∃ (ts' : List Token) (pending' : List Pending) (listed' : List Item) (s : Phrase .sum),
      Awaits .sum ts' pending' listed' ∧ ts ++ q.tokens = ts' ++ s.tokens
      ∧ Reading.release (fun _ => true) pending (q.tree.items.reverse ++ listed)
          = (pending', s.tree.items.reverse ++ listed') := by
  obtain ⟨k', ts', pending', listed', s, hw, hk', htok, hrel⟩ :=
    h.release .sum q hk (by cases m <;> decide) (by decide)
  obtain rfl : k' = .sum := by revert hk'; cases k' <;> decide
  -- every operator is at least as tight as a sum
  have hdue : (fun o : Operator => decide (Rank.sum.tightness ≤ o.tightness)) = fun _ => true :=
    funext fun o => decide_eq_true o.tightness_pos
  rw [hdue] at hrel
  exact ⟨ts', pending', listed', s, hw, htok, hrel⟩

/-- Below an innermost group the tokens are those before its parenthesis. -/
theorem of_group {rest : List Pending} (h : Awaits k ts pending listed) (hk : k = .sum)
    (hp : pending = .group :: rest) :
    ∃ (k' : Rank) (ts' : List Token), Awaits k' ts' rest listed ∧ ts = ts' ++ [.lpar] := by
  cases h with
  | group h =>
      simp only [List.cons.injEq, true_and] at hp
      exact ⟨_, _, hp ▸ h, rfl⟩
  | start => simp at hp
  | call => simp at hp
  | comma => simp at hp
  | operand => simp at hp
  | minus => simp at hp
  | plus => simp at hk

/-- With nothing pending, no token has been read. -/
theorem of_nil (h : Awaits k ts pending listed) (hk : k = .sum) (hp : pending = []) :
    ts = [] ∧ listed = [] := by
  cases h with
  | start => exact ⟨rfl, rfl⟩
  | group => simp at hp
  | call => simp at hp
  | comma => simp at hp
  | operand => simp at hp
  | minus => simp at hp
  | plus => simp at hk

/-- A sum read inside a call completes its last argument so far. -/
theorem arguments {f : Builtin} {n : Nat} {rest : List Pending}
    (h : Awaits k ts pending listed) (hk : k = .sum) (hp : pending = .call f n :: rest)
    (s : Phrase .sum) :
    ∃ (k' : Rank) (ts' : List Token) (listed' : List Item) (args : Arguments n),
      Awaits k' ts' rest listed'
      ∧ ts ++ s.tokens = ts' ++ .ident f.name :: .lpar :: args.tokens
      ∧ s.tree.items.reverse ++ listed = (Expr.itemsOfAll args.trees).reverse ++ listed' := by
  cases h with
  | @call k ts pending listed g h =>
      simp only [List.cons.injEq, Pending.call.injEq] at hp
      obtain ⟨⟨rfl, rfl⟩, rfl⟩ := hp
      refine ⟨k, ts, listed, .one s, h, ?_, ?_⟩
      · simp [Arguments.tokens]
      · simp [Arguments.trees, Expr.itemsOfAll]
  | @comma k ts pending listed g m args h =>
      simp only [List.cons.injEq, Pending.call.injEq] at hp
      obtain ⟨⟨rfl, rfl⟩, rfl⟩ := hp
      refine ⟨k, ts, listed, .more args s, h, ?_, ?_⟩
      · simp [Arguments.tokens]
      · simp [Arguments.trees, Expr.itemsOfAll_append, Expr.itemsOfAll]
  | start => simp at hp
  | group => simp at hp
  | operand => simp at hp
  | minus => simp at hp
  | plus => simp at hk

end Awaits

namespace Reached

variable {ts rest : List Token} {t : Token} {r r' : Reading}

/-- Before an operand there is no value, and unless a parenthesis comes no name of a function. -/
theorem awaits (h : Reached ts (t :: rest) r) (hv : r.last ≠ .value) (ht : t ≠ .lpar) :
    ∃ k, Awaits k ts r.pending r.listed
      ∧ (r.last = .opening ∧ k.tightness ≤ Rank.signed.tightness ∨ r.last = .sign) := by
  cases h with
  | opening h hk => exact ⟨_, h, .inl ⟨rfl, hk⟩⟩
  | sign h => exact ⟨_, h, .inr rfl⟩
  | callee f h => exact absurd rfl ht
  | value a h => exact absurd rfl hv

/-- After a value the last token ended an atom. -/
theorem atom (h : Reached ts rest r) (hv : r.last = .value) :
    ∃ (k : Rank) (ts' : List Token) (listed : List Item) (a : Phrase .atom),
      Awaits k ts' r.pending listed ∧ ts = ts' ++ a.tokens
      ∧ r.listed = a.tree.items.reverse ++ listed := by
  cases h with
  | value a h => exact ⟨_, _, _, a, h, rfl, rfl⟩
  | opening => simp at hv
  | sign => simp at hv
  | callee => simp at hv

/-! ## One token -/

theorem read_num {v : Float} (h : Reached ts (.num v :: rest) r)
    (hr : r.read (.num v) rest.head? = .ok r') : Reached (ts ++ [.num v]) rest r' := by
  obtain ⟨hv, rfl⟩ := Reading.of_checkOperand_map hr
  obtain ⟨k, hw, -⟩ := h.awaits hv (by simp)
  exact .value (.num v) hw

theorem read_ident {x : String} (h : Reached ts (.ident x :: rest) r)
    (hr : r.read (.ident x) rest.head? = .ok r') : Reached (ts ++ [.ident x]) rest r' := by
  obtain ⟨hv, hr⟩ := Reading.of_checkOperand_bind hr
  obtain ⟨k, hw, -⟩ := h.awaits hv (by simp)
  obtain ⟨f, hf, hcalled, rfl⟩ | ⟨hf, rfl⟩ := Reading.readName_cases hr
  · obtain rfl : f.name = x := Builtin.name_of_ofName? hf
    obtain ⟨rest', rfl⟩ := List.head?_eq_some_iff.mp (of_decide_eq_true hcalled)
    exact .callee f hw
  · exact .value (.name x hf) hw

theorem read_lpar (h : Reached ts (.lpar :: rest) r)
    (hr : r.read .lpar rest.head? = .ok r') : Reached (ts ++ [.lpar]) rest r' := by
  obtain ⟨hv, rfl⟩ := Reading.of_checkOperand_map hr
  cases h with
  | opening h _ => exact .opening h.group (by decide)
  | sign h => exact .opening h.group (by decide)
  | callee f h =>
      rw [List.append_assoc]
      exact .opening (h.call f) (by decide)
  | value a h => exact absurd rfl hv

/-- After a value, listing all pending operators leaves a sum. -/
theorem exists_sum (h : Reached ts rest r) (hv : r.last = .value) {pending : List Pending}
    {listed : List Item} (hr : r.releaseAll = (pending, listed)) :
    ∃ (ts' : List Token) (listed' : List Item) (s : Phrase .sum),
      Awaits .sum ts' pending listed' ∧ ts = ts' ++ s.tokens
      ∧ listed = s.tree.items.reverse ++ listed' := by
  obtain ⟨k, ts₁, listed₁, a, hw, rfl, hl⟩ := h.atom hv
  obtain ⟨ts₂, pending₂, listed₂, s, hw₂, htok, hrel⟩ :=
    hw.releaseAll a (Nat.le_trans hw.tightness_le (by decide))
  rw [Reading.releaseAll, hl, hrel, Prod.mk.injEq] at hr
  obtain ⟨rfl, rfl⟩ := hr
  exact ⟨ts₂, listed₂, s, hw₂, htok, rfl⟩

theorem read_comma (h : Reached ts (.comma :: rest) r)
    (hr : r.read .comma rest.head? = .ok r') : Reached (ts ++ [.comma]) rest r' := by
  obtain ⟨hv, f, n, pending, listed, hrel, rfl⟩ := Reading.readComma_cases hr
  obtain ⟨ts₁, listed₁, s, hw, rfl, rfl⟩ := h.exists_sum hv hrel
  obtain ⟨k, ts₂, listed₂, args, hw₂, htok, hl⟩ := hw.arguments rfl rfl s
  rw [htok, hl]
  have hopen : Reached _ rest _ := .opening (hw₂.comma f args) (by decide)
  simpa using hopen

theorem read_rpar (h : Reached ts (.rpar :: rest) r)
    (hr : r.read .rpar rest.head? = .ok r') : Reached (ts ++ [.rpar]) rest r' := by
  obtain ⟨hv, ⟨pending, listed, hrel, rfl⟩ | ⟨f, n, pending, listed, hrel, hn, rfl⟩⟩ :=
    Reading.readClosing_cases hr
  · -- a group
    obtain ⟨ts₁, listed₁, s, hw, rfl, rfl⟩ := h.exists_sum hv hrel
    obtain ⟨k, ts₂, hw₂, rfl⟩ := hw.of_group rfl rfl
    have hvalue : Reached _ rest _ := .value (.group s) hw₂
    simpa [Phrase.tokens, Phrase.tree] using hvalue
  · -- a call, whose last argument is the sum before the parenthesis
    obtain ⟨ts₁, listed₁, s, hw, rfl, rfl⟩ := h.exists_sum hv hrel
    obtain ⟨k, ts₂, listed₂, args, hw₂, htok, hl⟩ := hw.arguments rfl rfl s
    rw [htok, hl]
    have hvalue : Reached _ rest _ := .value (.call f args hn) hw₂
    simpa [Phrase.tokens, Phrase.tree, Expr.items, args.length_trees] using hvalue

/-- After a value an operator is between two operands. -/
theorem read_binary {op : BinOp} (h : Reached ts (.op op :: rest) r) (hv : r.last = .value) :
    Reached (ts ++ [.op op]) rest (r.readBinary op) := by
  obtain ⟨k, ts₁, listed, a, hw, rfl, hl⟩ := h.atom hv
  have hdue : (fun o : Operator => o.precedes (.bin op))
      = fun o => decide (op.leftRank.tightness ≤ o.tightness) :=
    funext fun o => o.precedes_bin op
  have hright : op.rightRank.tightness ≤ Rank.signed.tightness := by cases op <;> decide
  by_cases hpow : op = .pow
  · -- nothing binds tighter than a power, so nothing is listed
    subst hpow
    have hnone : Reading.release (·.precedes (.bin .pow)) r.pending r.listed
        = (r.pending, r.listed) := by
      rw [hdue]
      exact Reading.release_of_stop
        (fun o _ _ => decide_eq_false (Nat.not_le.mpr o.tightness_lt_atom)) r.listed
    rw [Reading.readBinary, hnone, hl, List.append_assoc]
    exact .opening (hw.operand .pow a hw.tightness_le) hright
  · -- what is listed becomes the left operand
    have hrank : op.leftRank = op.rank := by cases op <;> first | rfl | exact absurd rfl hpow
    obtain ⟨k', ts₂, pending, listed₂, q, hw₂, hk₂, htok, hrel⟩ :=
      hw.release op.leftRank a (Nat.le_trans hw.tightness_le (by decide))
        (by cases op <;> decide) (by revert hpow; cases op <;> decide)
    rw [Reading.readBinary, hdue, hl, hrel, htok, List.append_assoc]
    exact .opening (hw₂.operand op q (hrank ▸ hk₂)) hright

/-- Before an operand an operator is a sign. -/
theorem read_sign {op : BinOp} (h : Reached ts (.op op :: rest) r) (hv : r.last ≠ .value)
    (hs : op.isSign = true) (hr : r.readSign op = .ok r') :
    Reached (ts ++ [.op op]) rest r' := by
  obtain ⟨k, hw, hk⟩ := h.awaits hv (by simp)
  obtain ⟨hlast, rfl⟩ := Reading.readSign_cases hr
  rcases hk with ⟨-, hk⟩ | hk
  · cases op with
    | add => exact .sign (hw.plus hk)
    | sub => exact .sign (hw.minus hk)
    | _ => simp [BinOp.isSign] at hs
  · exact absurd hk hlast

/-- **The invariant is preserved by every token.** -/
theorem read (h : Reached ts (t :: rest) r) (hr : r.read t rest.head? = .ok r') :
    Reached (ts ++ [t]) rest r' := by
  cases t with
  | num v => exact h.read_num hr
  | ident x => exact h.read_ident hr
  | lpar => exact h.read_lpar hr
  | comma => exact h.read_comma hr
  | rpar => exact h.read_rpar hr
  | op op =>
      rw [Reading.read] at hr
      split at hr
      · rename_i hv
        simp only [Except.ok.injEq] at hr
        exact hr ▸ h.read_binary hv
      · rename_i hv
        split at hr
        · rename_i hs
          exact h.read_sign hv hs hr
        · simp at hr

/-- The invariant holds after any tokens that are read. -/
theorem readAll {us : List Token} (h : Reached ts us r) (hr : r.readAll us = .ok r') :
    Reached (ts ++ us) [] r' := by
  induction us generalizing ts r with
  | nil =>
      simp only [Reading.readAll, Except.ok.injEq] at hr
      subst hr
      rwa [List.append_nil]
  | cons t us ih =>
      rw [Reading.readAll] at hr
      cases h₁ : r.read t us.head? with
      | error e => rw [h₁] at hr; simp at hr
      | ok r₁ =>
          rw [h₁] at hr
          have := ih (h.read h₁) hr
          rwa [List.append_assoc] at this

end Reached

/-- **Soundness of the reader.** What is listed is the tree of a sum with that text. -/
theorem exists_phrase_of_ofTokens {ts : List Token} {l : Listing}
    (h : Listing.ofTokens ts = .ok l) :
    ∃ q : Phrase .sum, q.tokens = ts ∧ q.tree.listing = l := by
  unfold Listing.ofTokens at h
  cases hr : Reading.start.readAll ts with
  | error e => rw [hr] at h; simp [bind, Except.bind] at h
  | ok r =>
      rw [hr] at h
      simp only [bind, Except.bind] at h
      have hreach : Reached ts [] r := by
        have hread : Reached ([] ++ ts) [] r := .readAll (.opening .start (by decide)) hr
        rwa [List.nil_append] at hread
      split at h
      · rename_i hv
        unfold Reading.close at h
        split at h
        · rename_i listed hrel
          -- nothing is pending, so the sum is all there is
          obtain ⟨ts₁, listed₁, s, hw, rfl, rfl⟩ := hreach.exists_sum hv hrel
          obtain ⟨rfl, rfl⟩ := hw.of_nil rfl rfl
          refine ⟨s, rfl, ?_⟩
          rw [← Except.ok.inj h, Expr.listing_eq_items, List.append_nil, List.reverse_reverse]
        · cases h
      · split at h <;> cases h

/-- What is listed is the listing of a tree, and the tree is read back from it. -/
theorem exists_tree_of_ofTokens {ts : List Token} {l : Listing}
    (h : Listing.ofTokens ts = .ok l) :
    ∃ q : Phrase .sum, q.tokens = ts ∧ l = q.tree.listing ∧ Expr.ofListing l = .ok q.tree := by
  obtain ⟨q, hq, rfl⟩ := exists_phrase_of_ofTokens h
  exact ⟨q, hq, rfl, Expr.ofListing_listing q.tree⟩

/-- **The reader is exact.** It reads the texts of sums and no others, a text is that of one sum at
most, and what it lists is the tree that the sum stands for, operands first, which is the tree that
is read back from the listing. -/
theorem Listing.ofTokens_exact :
    (∀ ts : List Token, (∃ l, Listing.ofTokens ts = .ok l) ↔ ∃ q : Phrase .sum, q.tokens = ts)
    ∧ Function.Injective (Phrase.tokens : Phrase .sum → List Token)
    ∧ ∀ q : Phrase .sum, Listing.ofTokens q.tokens = .ok q.tree.items
        ∧ Expr.ofListing q.tree.items = .ok q.tree := by
  refine ⟨fun ts => ⟨?_, ?_⟩, Phrase.tokens_injective .sum, fun q => ⟨?_, ?_⟩⟩
  · rintro ⟨l, hl⟩
    obtain ⟨q, hq, -⟩ := exists_phrase_of_ofTokens hl
    exact ⟨q, hq⟩
  · rintro ⟨q, rfl⟩
    exact ⟨_, q.ofTokens_tokens⟩
  · rw [q.ofTokens_tokens, Expr.listing_eq_items]
  · rw [← Expr.listing_eq_items]
    exact Expr.ofListing_listing q.tree

/-- The sign of an exponent reaches over a power, and the product takes all of it. -/
example : Listing.ofTokens [.num 2, .op .pow, .op .sub, .num 3, .op .pow, .num 2, .op .mul, .num 4]
    = .ok [.num 2, .num 3, .num 2, .op (.bin .pow), .op .neg, .op (.bin .pow), .num 4,
        .op (.bin .mul)] := by
  rfl

end Reckon
