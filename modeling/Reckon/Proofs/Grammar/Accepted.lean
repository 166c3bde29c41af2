import Reckon.Proofs.Grammar

/-!
# Every phrase is read

The reader takes the text of a phrase for what the phrase stands for, wherever a phrase of that
rank is due. `Accepts` says so of any text: started on a state that is ready for an operand, the
reader goes through the text and leaves a value above what was pending before.

The value need not be listed in full. Operators inside the phrase may still be pending, because
they wait for an operator that does not come before the phrase ends; `Settled` says which ones may,
and that listing them makes the listing complete. What follows the phrase then lists them, since
nothing that can follow it binds as tightly.
-/

namespace Reckon

/-- The least tightness of the operators that a phrase of a rank may leave pending. A power may
leave the sign of its exponent. -/
def Rank.slack : Rank → Nat
  | sum => 1
  | product => 2
  | signed | power => 3
  | atom => 5

theorem Rank.slack_mono {k m : Rank} (h : k.tightness ≤ m.tightness) : k.slack ≤ m.slack := by
  revert h
  cases k <;> cases m <;> decide

/-- A pending operator precedes `op` if it binds as tightly as the left operand of `op` must. -/
theorem Operator.precedes_bin (o : Operator) (op : BinOp) :
    o.precedes (.bin op) = decide (op.leftRank.tightness ≤ o.tightness) := by
  cases op <;> rfl

theorem Operator.tightness_pos (o : Operator) : 0 < o.tightness := by
  cases o with
  | neg => decide
  | bin op => cases op <;> decide

theorem Operator.tightness_lt_atom (o : Operator) : o.tightness < Rank.atom.tightness := by
  cases o with
  | neg => decide
  | bin op => cases op <;> decide

namespace Reading

/-- Ready for a phrase of a rank: one that is not tighter than a power may itself begin with a
sign, so no sign stands before it. -/
def Ready (k : Rank) (r : Reading) : Prop :=
  r.last = .opening ∨ r.last = .sign ∧ Rank.power.tightness ≤ k.tightness

/-- No operator of tightness `t` or more is pending innermost. -/
def Guards (t : Nat) (pending : List Pending) : Prop :=
  ∀ o rest, pending = .op o :: rest → o.tightness < t

/-- A value is complete above `pending`: the operators still pending on top bind at least as tightly
as `least`, and with them listed the listing is `listed`. -/
structure Settled (least : Nat) (pending : List Pending) (listed : List Item) (r : Reading) :
    Prop where
  /-- The last token ended the value. -/
  last : r.last = .value
  /-- Only operators stand above `pending`. -/
  above : ∃ ops : List Operator, (∀ o ∈ ops, least ≤ o.tightness)
    ∧ r.pending = ops.map .op ++ pending ∧ (ops.map Item.op).reverse ++ r.listed = listed

/-- The reader takes `text` for a phrase of rank `k` with the listing `items`. The next token is not
an open parenthesis: a name before one would be a call. -/
def Accepts (k : Rank) (text : List Token) (items : Listing) : Prop :=
  ∀ (r : Reading) (ts : List Token), r.Ready k →
    (k.tightness ≤ Rank.product.tightness → Guards k.tightness r.pending) →
    ts.head? ≠ some .lpar →
    ∃ r', r.readAll (text ++ ts) = r'.readAll ts
      ∧ Settled k.slack r.pending (items.reverse ++ r.listed) r'

/-! ## What is pending -/

section

variable {least least' : Nat} {pending : List Pending} {listed : List Item} {r : Reading}

theorem Guards.mono {t t' : Nat} (h : Guards t pending) (ht : t ≤ t') : Guards t' pending :=
  fun o rest he => Nat.lt_of_lt_of_le (h o rest he) ht

theorem guards_atom (pending : List Pending) : Guards Rank.atom.tightness pending :=
  fun o _ _ => o.tightness_lt_atom

theorem guards_op {t : Nat} {o : Operator} (h : o.tightness < t) : Guards t (.op o :: pending) := by
  intro o' rest he
  simp only [List.cons.injEq, Pending.op.injEq] at he
  exact he.1 ▸ h

theorem guards_nil (t : Nat) : Guards t [] := by
  intro o rest he; simp at he

theorem guards_group (t : Nat) (pending : List Pending) : Guards t (.group :: pending) := by
  intro o rest he; simp at he

theorem guards_call (t : Nat) (f : Builtin) (n : Nat) (pending : List Pending) :
    Guards t (.call f n :: pending) := by
  intro o rest he; simp at he

theorem Settled.mono (h : Settled least pending listed r) (hl : least' ≤ least) :
    Settled least' pending listed r := by
  obtain ⟨ops, hops, hp, hi⟩ := h.above
  exact ⟨h.last, ops, fun o ho => Nat.le_trans hl (hops o ho), hp, hi⟩

/-- A value whose listing is complete is settled. -/
theorem settled_value (least : Nat) (pending : List Pending) (listed : List Item) :
    Settled least pending listed ⟨listed, pending, .value⟩ :=
  ⟨rfl, [], by simp, rfl, rfl⟩

/-- An operator below a settled value becomes one of its pending operators. -/
theorem Settled.cons {o : Operator} (h : Settled least (.op o :: pending) listed r)
    (hl : least' ≤ least) (ho : least' ≤ o.tightness) :
    Settled least' pending (.op o :: listed) r := by
  obtain ⟨ops, hops, hp, hi⟩ := h.above
  refine ⟨h.last, ops ++ [o], ?_, ?_, ?_⟩
  · intro o' ho'
    rcases List.mem_append.mp ho' with h' | h'
    · exact Nat.le_trans hl (hops o' h')
    · rw [List.mem_singleton.mp h']; exact ho
  · rw [hp]; simp
  · rw [← hi]; simp

/-! ## What the next token lists -/

/-- Operators that are due are listed, down to the first that is not. -/
theorem release_append {due : Operator → Bool} {ops : List Operator}
    (hdue : ∀ o ∈ ops, due o = true) (hstop : ∀ o rest, pending = .op o :: rest → due o = false)
    (listed : List Item) :
    release due (ops.map .op ++ pending) listed
      = (pending, (ops.map Item.op).reverse ++ listed) := by
  induction ops generalizing listed with
  | nil =>
      cases pending with
      | nil => rfl
      | cons p rest =>
          cases p with
          | op o => simp [release, hstop o rest rfl]
          | group => rfl
          | call f n => rfl
  | cons o ops ih =>
      have ho : due o = true := hdue o (.head _)
      simp only [List.map_cons, List.cons_append, release, ho, if_true]
      rw [ih (fun o' ho' => hdue o' (.tail _ ho'))]
      simp

theorem release_of_stop {due : Operator → Bool}
    (hstop : ∀ o rest, pending = .op o :: rest → due o = false) (listed : List Item) :
    release due pending listed = (pending, listed) := by
  have hnone : ∀ o ∈ ([] : List Operator), due o = true := by simp
  exact release_append hnone hstop listed

theorem Settled.readBinary {op : BinOp} (h : Settled op.leftRank.tightness pending listed r)
    (hg : Guards op.leftRank.tightness pending) :
    r.readBinary op = ⟨listed, .op (.bin op) :: pending, .opening⟩ := by
  obtain ⟨ops, hops, hp, hi⟩ := h.above
  have hdue : ∀ o ∈ ops, o.precedes (.bin op) = true := fun o ho => by
    rw [Operator.precedes_bin]
    exact decide_eq_true (hops o ho)
  have hstop : ∀ o rest, pending = .op o :: rest → o.precedes (.bin op) = false :=
    fun o rest he => by
      rw [Operator.precedes_bin]
      exact decide_eq_false (Nat.not_le.mpr (hg o rest he))
  rw [Reading.readBinary, hp, release_append hdue hstop, hi]

theorem Settled.releaseAll (h : Settled least pending listed r)
    (hg : Guards Rank.sum.tightness pending) : r.releaseAll = (pending, listed) := by
  obtain ⟨ops, -, hp, hi⟩ := h.above
  rw [Reading.releaseAll, hp, release_append (fun _ _ => rfl), hi]
  intro o rest he
  exact absurd o.tightness_pos (Nat.not_lt.mpr (Nat.le_of_lt_succ (hg o rest he)))

end

/-! ## Reading token by token -/

theorem readAll_cons {r r' : Reading} {t : Token} {ts : List Token}
    (h : r.read t ts.head? = .ok r') : r.readAll (t :: ts) = r'.readAll ts := by
  rw [readAll, h]

theorem Ready.last_ne_value {k : Rank} {r : Reading} (h : r.Ready k) : r.last ≠ .value := by
  rcases h with h | ⟨h, -⟩ <;> rw [h] <;> simp

/-- A phrase that may begin with a sign has none before it. -/
theorem Ready.last_eq_opening {r : Reading} (h : r.Ready .signed) : r.last = .opening := by
  rcases h with h | ⟨-, h⟩
  · exact h
  · exact absurd h (by decide)

theorem Ready.checkOperand {k : Rank} {r : Reading} (h : r.Ready k) (t : Token) :
    r.checkOperand t = .ok () := by
  rw [Reading.checkOperand, if_neg h.last_ne_value]

theorem Ready.readOpening {k : Rank} {r : Reading} (h : r.Ready k) :
    r.readOpening = ⟨r.listed, .group :: r.pending, .opening⟩ := by
  rcases h with h | ⟨h, -⟩ <;> simp [Reading.readOpening, h]

theorem accepts_num (v : Float) : Accepts .atom [.num v] [.num v] := by
  intro r ts hr _ _
  refine ⟨r.readOperand (.num v), readAll_cons ?_, settled_value _ _ _⟩
  simp only [read, hr.checkOperand]
  rfl

theorem accepts_name {x : String} (hx : Builtin.ofName? x = none) :
    Accepts .atom [.ident x] [.var x] := by
  intro r ts hr _ hts
  refine ⟨r.readOperand (.var x), ?_, settled_value _ _ _⟩
  rw [List.singleton_append]
  refine readAll_cons ?_
  simp [read, hr.checkOperand, Except.bind, readName, hx, hts]

section

variable {text : List Token} {items : Listing}

/-- A text between parentheses that is read as a sum is read as an atom. -/
theorem Accepts.group (h : Accepts .sum text items) :
    Accepts .atom (.lpar :: (text ++ [.rpar])) items := by
  intro r ts hr _ _
  let r₁ : Reading := ⟨r.listed, .group :: r.pending, .opening⟩
  obtain ⟨r₂, h₂, hs⟩ := h r₁ (.rpar :: ts) (.inl rfl) (fun _ => guards_group _ _) (by simp)
  refine ⟨⟨items.reverse ++ r.listed, r.pending, .value⟩, ?_, settled_value _ _ _⟩
  have hopen : r.readAll (.lpar :: (text ++ .rpar :: ts)) = r₁.readAll (text ++ .rpar :: ts) := by
    refine readAll_cons ?_
    simp only [read, hr.checkOperand, hr.readOpening]
    rfl
  have hclose : r₂.readAll (.rpar :: ts)
      = readAll ⟨items.reverse ++ r.listed, r.pending, .value⟩ ts := by
    refine readAll_cons ?_
    simp only [read, readClosing, hs.last, hs.releaseAll (guards_group _ _)]
    rfl
  rw [← hclose, ← h₂, ← hopen]
  simp

/-- A phrase counts as one of any looser rank. -/
theorem Accepts.loosen {k m : Rank} (h : Accepts m text items) (hk : k.tightness ≤ m.tightness) :
    Accepts k text items := by
  intro r ts hr hg hts
  obtain ⟨r', h', hs⟩ := h r ts
    (hr.imp_right fun ⟨hl, hp⟩ => ⟨hl, Nat.le_trans hp hk⟩)
    (fun hm => (hg (Nat.le_trans hk hm)).mono hk) hts
  exact ⟨r', h', hs.mono (Rank.slack_mono hk)⟩

theorem Accepts.plus (h : Accepts .power text items) :
    Accepts .signed (.op .add :: text) items := by
  intro r ts hr _ hts
  obtain ⟨r', h', hs⟩ := h { r with last := .sign } ts (.inr ⟨rfl, Nat.le_refl _⟩)
    (fun hk => absurd hk (by decide)) hts
  -- a plus sign leaves no trace, so what is settled for the power is settled for the whole
  refine ⟨r', ?_, hs⟩
  rw [List.cons_append, ← h']
  refine readAll_cons ?_
  simp [read, hr.last_eq_opening, BinOp.isSign, readSign]

theorem Accepts.minus (h : Accepts .power text items) :
    Accepts .signed (.op .sub :: text) (items ++ [.op .neg]) := by
  intro r ts hr _ hts
  obtain ⟨r', h', hs⟩ := h ⟨r.listed, .op .neg :: r.pending, .sign⟩ ts
    (.inr ⟨rfl, Nat.le_refl _⟩) (fun hk => absurd hk (by decide)) hts
  refine ⟨r', ?_, ?_⟩
  · rw [List.cons_append, ← h']
    refine readAll_cons ?_
    simp [read, hr.last_eq_opening, BinOp.isSign, readSign]
  · -- the sign below the power stays pending with what the power leaves
    have hsettled : Settled Rank.signed.slack r.pending _ r' := hs.cons (Nat.le_refl _) (by decide)
    simpa using hsettled

end

/-- Two operands with an operator between them. -/
theorem Accepts.bin (op : BinOp) {ta tb : List Token} {a b : Listing}
    (ha : Accepts op.leftRank ta a) (hb : Accepts op.rightRank tb b) :
    Accepts op.rank (ta ++ .op op :: tb) (a ++ b ++ [.op (.bin op)]) := by
  intro r ts hr hg hts
  have hready : r.Ready op.leftRank := hr.imp_right fun ⟨hl, hp⟩ => ⟨hl, by
    revert hp; cases op <;> decide⟩
  -- nothing pending binds as tightly as an atom; elsewhere the left operand is as loose as the
  -- phrase, which is guarded
  have hguard : Guards op.leftRank.tightness r.pending := by
    cases op with
    | pow => exact guards_atom _
    | _ => exact hg (by decide)
  obtain ⟨r₁, h₁, hs₁⟩ := ha r (.op op :: (tb ++ ts)) hready (fun _ => hguard) (by simp)
  have hslack : op.leftRank.slack = op.leftRank.tightness := by cases op <;> rfl
  rw [hslack] at hs₁
  have hop : r₁.readAll (.op op :: (tb ++ ts))
      = readAll ⟨a.reverse ++ r.listed, .op (.bin op) :: r.pending, .opening⟩ (tb ++ ts) := by
    refine readAll_cons ?_
    simp only [read, hs₁.last, if_true, hs₁.readBinary hguard]
  obtain ⟨r₂, h₂, hs₂⟩ := hb ⟨a.reverse ++ r.listed, .op (.bin op) :: r.pending, .opening⟩ ts
    (.inl rfl) (fun hk => guards_op (by revert hk; cases op <;> decide)) hts
  refine ⟨r₂, ?_, ?_⟩
  · rw [← h₂, ← hop, ← h₁]
    simp
  · -- the operator waits below whatever its right operand leaves pending
    have hsettled : Settled op.rank.slack r.pending _ r₂ :=
      hs₂.cons (by cases op <;> decide) (by cases op <;> decide)
    simpa using hsettled

/-! ## Calls -/

/-- The reader takes `text` for `n` arguments of a call with the listings `items`, read from its
open parenthesis on. -/
def AcceptsArguments (n : Nat) (text : List Token) (items : Listing) : Prop :=
  ∀ (f : Builtin) (pending : List Pending) (listed : List Item) (ts : List Token),
    ts.head? ≠ some .lpar →
    ∃ r', readAll ⟨listed, .call f 1 :: pending, .opening⟩ (text ++ ts) = r'.readAll ts
      ∧ Settled Rank.sum.slack (.call f n :: pending) (items.reverse ++ listed) r'

theorem Accepts.one {text : List Token} {items : Listing} (h : Accepts .sum text items) :
    AcceptsArguments 1 text items :=
  fun _ _ _ ts hts => h _ ts (.inl rfl) (fun _ => guards_call _ _ _ _) hts

/-- A comma lists what the argument before it left pending and begins the next one. -/
theorem AcceptsArguments.more {n : Nat} {ta tb : List Token} {a b : Listing}
    (ha : AcceptsArguments n ta a) (hb : Accepts .sum tb b) :
    AcceptsArguments (n + 1) (ta ++ .comma :: tb) (a ++ b) := by
  intro f pending listed ts hts
  obtain ⟨r₁, h₁, hs₁⟩ := ha f pending listed (.comma :: (tb ++ ts)) (by simp)
  let r₂ : Reading := ⟨a.reverse ++ listed, .call f (n + 1) :: pending, .opening⟩
  have hcomma : r₁.readAll (.comma :: (tb ++ ts)) = r₂.readAll (tb ++ ts) := by
    refine readAll_cons ?_
    simp [read, readComma, hs₁.last, hs₁.releaseAll (guards_call _ _ _ _), r₂]
  obtain ⟨r₃, h₃, hs₃⟩ := hb r₂ ts (.inl rfl) (fun _ => guards_call _ _ _ _) hts
  refine ⟨r₃, ?_, ?_⟩
  · rw [← h₃, ← hcomma, ← h₁]
    simp
  · simpa [r₂] using hs₃

theorem AcceptsArguments.call {f : Builtin} {n : Nat} {text : List Token} {items : Listing}
    (h : AcceptsArguments n text items) (hn : f.arity.accepts n) :
    Accepts .atom (.ident f.name :: .lpar :: (text ++ [.rpar])) (items ++ [.call f n]) := by
  intro r ts hr _ _
  obtain ⟨r₁, h₁, hs₁⟩ := h f r.pending r.listed (.rpar :: ts) (by simp)
  refine ⟨⟨.call f n :: (items.reverse ++ r.listed), r.pending, .value⟩, ?_, ?_⟩
  · have hname : r.readAll (.ident f.name :: .lpar :: (text ++ .rpar :: ts))
        = readAll { r with last := .callee f } (.lpar :: (text ++ .rpar :: ts)) := by
      refine readAll_cons ?_
      simp [read, hr.checkOperand, Except.bind, readName, Builtin.ofName?_name]
    have hopen : readAll { r with last := .callee f } (.lpar :: (text ++ .rpar :: ts))
        = readAll ⟨r.listed, .call f 1 :: r.pending, .opening⟩ (text ++ .rpar :: ts) := by
      refine readAll_cons ?_
      simp [read, checkOperand, readOpening, Except.map]
    have hclose : r₁.readAll (.rpar :: ts)
        = readAll ⟨.call f n :: (items.reverse ++ r.listed), r.pending, .value⟩ ts := by
      refine readAll_cons ?_
      simp [read, readClosing, hs₁.last, hs₁.releaseAll (guards_call _ _ _ _), hn]
    rw [← hclose, ← h₁, ← hopen, ← hname]
    simp
  · simpa using settled_value _ r.pending (.call f n :: (items.reverse ++ r.listed))

/-! ## Phrases -/

mutual

/-- **Every phrase is read** as what it stands for. -/
theorem accepts_phrase : ∀ {k : Rank} (q : Phrase k), Accepts k q.tokens q.tree.items
  | _, .num v => accepts_num v
  | _, .name _ free => accepts_name free
  | _, .group s => (accepts_phrase s).group
  | _, .call f args accepted => by
      rw [Phrase.tree, Expr.items, args.length_trees]
      exact (accepts_arguments args).call accepted
  | _, .ofAtom a => (accepts_phrase a).loosen (by decide)
  | _, .pow a b => Accepts.bin .pow (accepts_phrase a) (accepts_phrase b)
  | _, .ofPower p => (accepts_phrase p).loosen (by decide)
  | _, .plus p => (accepts_phrase p).plus
  | _, .minus p => (accepts_phrase p).minus
  | _, .ofSigned s => (accepts_phrase s).loosen (by decide)
  | _, .mul op scales p s => by
      obtain ⟨hl, hr⟩ := BinOp.operands_of_product scales
      have h := Accepts.bin op (by rw [hl]; exact accepts_phrase p)
        (by rw [hr]; exact accepts_phrase s)
      rwa [scales] at h
  | _, .ofProduct p => (accepts_phrase p).loosen (by decide)
  | _, .add op adds s p => by
      obtain ⟨hl, hr⟩ := BinOp.operands_of_sum adds
      have h := Accepts.bin op (by rw [hl]; exact accepts_phrase s)
        (by rw [hr]; exact accepts_phrase p)
      rwa [adds] at h

theorem accepts_arguments : ∀ {n : Nat} (args : Arguments n),
    AcceptsArguments n args.tokens (Expr.itemsOfAll args.trees)
  | _, .one s => by
      rw [Arguments.trees, Expr.itemsOfAll, Expr.itemsOfAll, List.append_nil]
      exact (accepts_phrase s).one
  | _, .more args s => by
      rw [Arguments.trees, Expr.itemsOfAll_append, Expr.itemsOfAll, Expr.itemsOfAll,
        List.append_nil]
      exact (accepts_arguments args).more (accepts_phrase s)

end

end Reading

/-- **Completeness of the reader.** A sum is listed as the tree that it stands for. -/
theorem Phrase.ofTokens_tokens (q : Phrase .sum) :
    Listing.ofTokens q.tokens = .ok q.tree.listing := by
  obtain ⟨r, hr, hs⟩ := Reading.accepts_phrase q Reading.start [] (.inl rfl)
    (fun _ => Reading.guards_nil _) (by simp)
  rw [List.append_nil, Reading.readAll] at hr
  have hclose : r.close = .ok q.tree.items := by
    rw [Reading.close, hs.releaseAll (Reading.guards_nil _)]
    simp [Reading.start]
  simp only [Listing.ofTokens, hr, bind, Except.bind, hs.last, if_true, hclose,
    Expr.listing_eq_items]

/-- No tokens are no phrase, because the reader does not take them. -/
theorem Phrase.tokens_ne_nil {k : Rank} (q : Phrase k) : q.tokens ≠ [] := by
  obtain ⟨s, hs, -⟩ := q.exists_sum
  rw [← hs]
  intro h
  have hread := s.ofTokens_tokens
  rw [h] at hread
  cases hread

end Reckon
