import Reckon.Proofs.Grammar

/-!
# No text has two phrases

The text of a phrase tells where the phrase ends, given that no token follows that could go on with
it: of two phrases of one rank at the front of a text neither ends before the other. `ReadsOnce`
says so, and with nothing after it the text determines the phrase.

Three kinds of phrases are sequences that grow to the right: sums, products and the arguments of a
call. Their grammar is left-recursive, so there is no comparing the two from the left at the root
of their trees. They are compared by their parts instead: `Chain` is what the three have in common,
and `readsUpTo_snoc` says that of two sequences at the front of a text one continues the other.
-/

namespace Reckon

/-- No token at the front is one that goes on with the phrase before it. -/
def Stops (goesOn : Token → Bool) (ts : List Token) : Prop := ∀ t ∈ ts.head?, goesOn t = false

theorem Stops.cons {goesOn : Token → Bool} {t : Token} {ts : List Token} (h : goesOn t = false) :
    Stops goesOn (t :: ts) := by
  intro t' ht
  simp only [List.head?_cons, Option.mem_def, Option.some.injEq] at ht
  exact ht ▸ h

theorem Stops.mono {goesOn goesOn' : Token → Bool} {ts : List Token} (h : Stops goesOn ts)
    (hg : ∀ t, goesOn' t = true → goesOn t = true) : Stops goesOn' ts := by
  intro t ht
  rw [← Bool.not_eq_true]
  intro ht'
  have := h t ht
  rw [hg t ht'] at this
  cases this

/-- A phrase that is the only one of its kind at the front of its text, if what follows stops it. -/
def ReadsOnce {α : Type} (tokens : α → List Token) (goesOn : Token → Bool) (a : α) : Prop :=
  ∀ (a' : α) (k k' : List Token), tokens a ++ k = tokens a' ++ k' → Stops goesOn k →
    Stops goesOn k' → a = a' ∧ k = k'

/-! ## Sequences -/

/-- Sequences of parts with a separator between any two. `goesOn` tells the tokens that go on with a
part, among which no separator is. -/
structure Chain (α β σ : Type) where
  one : β → α
  snoc : α → σ → β → α
  tokens : α → List Token
  part : β → List Token
  separator : σ → Token
  goesOn : Token → Bool
  tokens_one : ∀ b, tokens (one b) = part b
  tokens_snoc : ∀ a s b, tokens (snoc a s b) = tokens a ++ separator s :: part b
  separator_injective : Function.Injective separator
  separator_stops : ∀ s, goesOn (separator s) = false
  induction : ∀ {motive : α → Prop}, (∀ b, motive (one b)) →
    (∀ a s b, motive a → motive (snoc a s b)) → ∀ a, motive a

namespace Chain

variable {α β σ : Type} (c : Chain α β σ)

/-- A sequence with some parts after it. -/
def extend (a : α) (l : List (σ × β)) : α := l.foldl (fun a p => c.snoc a p.1 p.2) a

/-- The text of some parts, each after its separator. -/
def tail (l : List (σ × β)) : List Token := l.flatMap fun p => c.separator p.1 :: c.part p.2

/-- The sequence is, at the front of its text, the only one up to more parts: another one continues
it or is continued by it. -/
def ReadsUpTo (a : α) : Prop :=
  ∀ (a' : α) (k k' : List Token), c.tokens a ++ k = c.tokens a' ++ k' → Stops c.goesOn k →
    Stops c.goesOn k' →
    ∃ l, a' = c.extend a l ∧ k = c.tail l ++ k' ∨ a = c.extend a' l ∧ k' = c.tail l ++ k

theorem tokens_extend (a : α) (l : List (σ × β)) :
    c.tokens (c.extend a l) = c.tokens a ++ c.tail l := by
  induction l generalizing a with
  | nil => simp [extend, tail]
  | cons p l ih =>
      have : c.extend a (p :: l) = c.extend (c.snoc a p.1 p.2) l := rfl
      rw [this, ih, c.tokens_snoc]
      simp [tail]

theorem tail_snoc (l : List (σ × β)) (s : σ) (b : β) :
    c.tail (l ++ [(s, b)]) = c.tail l ++ c.separator s :: c.part b := by
  simp [tail]

theorem extend_snoc (a : α) (l : List (σ × β)) (s : σ) (b : β) :
    c.extend a (l ++ [(s, b)]) = c.snoc (c.extend a l) s b := by
  simp [extend]

/-- Every sequence is its first part with the others after it. -/
theorem exists_extend (a : α) : ∃ b l, a = c.extend (c.one b) l := by
  refine c.induction (motive := fun a => ∃ b l, a = c.extend (c.one b) l)
    (fun b => ⟨b, [], rfl⟩) (fun a s b ih => ?_) a
  obtain ⟨b₀, l, rfl⟩ := ih
  exact ⟨b₀, l ++ [(s, b)], (c.extend_snoc _ l s b).symm⟩

theorem stops_tail {l : List (σ × β)} {k : List Token} (hk : Stops c.goesOn k) :
    Stops c.goesOn (c.tail l ++ k) := by
  cases l with
  | nil => exact hk
  | cons p l => exact Stops.cons (c.separator_stops p.1)

theorem readsUpTo_one {b : β} (hb : ReadsOnce c.part c.goesOn b) : c.ReadsUpTo (c.one b) := by
  intro a' k k' h hk hk'
  obtain ⟨b', l, rfl⟩ := c.exists_extend a'
  rw [c.tokens_extend, c.tokens_one, c.tokens_one, List.append_assoc] at h
  obtain ⟨rfl, rfl⟩ := hb b' k _ h hk (c.stops_tail hk')
  exact ⟨l, .inl ⟨rfl, rfl⟩⟩

theorem readsUpTo_snoc {a : α} {s : σ} {b : β} (ha : c.ReadsUpTo a)
    (hb : ReadsOnce c.part c.goesOn b) : c.ReadsUpTo (c.snoc a s b) := by
  intro a' k k' h hk hk'
  rw [c.tokens_snoc, List.append_assoc] at h
  -- the sequence without its last part is compared first, before the separator
  obtain ⟨l, ⟨rfl, hl⟩ | ⟨rfl, hl⟩⟩ :=
    ha a' (c.separator s :: c.part b ++ k) k' h (Stops.cons (c.separator_stops s)) hk'
  · cases l with
    | nil =>
        -- the other one is the sequence without its last part
        exact ⟨[(s, b)], .inr ⟨rfl, by simpa [tail] using hl.symm⟩⟩
    | cons p l =>
        -- the other one goes on, so its next part is the last one of this
        simp only [tail, List.flatMap_cons, List.cons_append, List.cons.injEq,
          List.append_assoc] at hl
        obtain ⟨hs, hl⟩ := hl
        obtain ⟨rfl, rfl⟩ := hb p.2 k _ hl hk (c.stops_tail hk')
        obtain rfl : s = p.1 := c.separator_injective hs
        exact ⟨l, .inl ⟨rfl, rfl⟩⟩
  · refine ⟨l ++ [(s, b)], .inr ⟨(c.extend_snoc a' l s b).symm, ?_⟩⟩
    rw [c.tail_snoc, hl]
    simp

/-- A sequence does not go on where a separator would go on with it. -/
theorem eq_nil_of_stops {goesOn : Token → Bool} (hsep : ∀ s, goesOn (c.separator s) = true)
    {l : List (σ × β)} {k : List Token} (hk : Stops goesOn (c.tail l ++ k)) : l = [] := by
  cases l with
  | nil => rfl
  | cons p l =>
      have hstop : goesOn (c.separator p.1) = false := hk _ rfl
      rw [hsep] at hstop
      cases hstop

/-- Before a token that is no separator either, a sequence is the only one. -/
theorem ReadsUpTo.readsOnce {c : Chain α β σ} {a : α} (ha : c.ReadsUpTo a) {goesOn : Token → Bool}
    (hpart : ∀ t, c.goesOn t = true → goesOn t = true)
    (hsep : ∀ s, goesOn (c.separator s) = true) : ReadsOnce c.tokens goesOn a := by
  intro a' k k' h hk hk'
  obtain ⟨l, ⟨rfl, rfl⟩ | ⟨rfl, rfl⟩⟩ := ha a' k k' h (hk.mono hpart) (hk'.mono hpart)
  · obtain rfl := c.eq_nil_of_stops hsep hk
    exact ⟨rfl, rfl⟩
  · obtain rfl := c.eq_nil_of_stops hsep hk'
    exact ⟨rfl, rfl⟩

end Chain

/-! ## The three kinds of sequences -/

theorem Phrase.sum_induction {motive : Phrase .sum → Prop} (one : ∀ p, motive (.ofProduct p))
    (snoc : ∀ s op adds p, motive s → motive (.add op adds s p)) : ∀ s, motive s
  | .ofProduct p => one p
  | .add op adds s p => snoc s op adds p (sum_induction one snoc s)

theorem Phrase.product_induction {motive : Phrase .product → Prop}
    (one : ∀ s, motive (.ofSigned s))
    (snoc : ∀ p op scales s, motive p → motive (.mul op scales p s)) : ∀ p, motive p
  | .ofSigned s => one s
  | .mul op scales p s => snoc p op scales s (product_induction one snoc p)

/-- The tokens that go on with a phrase of a rank: the operators that make a phrase of it an operand
of another of that rank. -/
def Rank.goesOn (k : Rank) : Token → Bool
  | .op op => k.tightness ≤ op.rank.tightness
  | _ => false

/-- Sums, as sequences of products. -/
def sums : Chain (Phrase .sum) (Phrase .product) { op : BinOp // op.rank = .sum } where
  one := .ofProduct
  snoc s op p := .add op.1 op.2 s p
  tokens := Phrase.tokens
  part := Phrase.tokens
  separator op := .op op.1
  goesOn := Rank.product.goesOn
  tokens_one _ := rfl
  tokens_snoc _ _ _ := rfl
  separator_injective := fun _ _ h => Subtype.ext (Token.op.inj h)
  separator_stops op := by simp [Rank.goesOn, op.2, Rank.tightness]
  induction one snoc := Phrase.sum_induction one fun s op h p => snoc s ⟨op, h⟩ p

/-- Products, as sequences of signed phrases. -/
def products : Chain (Phrase .product) (Phrase .signed) { op : BinOp // op.rank = .product } where
  one := .ofSigned
  snoc p op s := .mul op.1 op.2 p s
  tokens := Phrase.tokens
  part := Phrase.tokens
  separator op := .op op.1
  goesOn := Rank.signed.goesOn
  tokens_one _ := rfl
  tokens_snoc _ _ _ := rfl
  separator_injective := fun _ _ h => Subtype.ext (Token.op.inj h)
  separator_stops op := by simp [Rank.goesOn, op.2, Rank.tightness]
  induction one snoc := Phrase.product_induction one fun p op h s => snoc p ⟨op, h⟩ s

/-- Arguments, of any number, as sequences of sums. -/
def argumentLists : Chain ((n : Nat) × Arguments n) (Phrase .sum) Unit where
  one s := ⟨1, .one s⟩
  snoc args _ s := ⟨args.1 + 1, .more args.2 s⟩
  tokens args := args.2.tokens
  part := Phrase.tokens
  separator _ := .comma
  goesOn := Rank.sum.goesOn
  tokens_one _ := rfl
  tokens_snoc _ _ _ := rfl
  separator_injective := fun _ _ _ => rfl
  separator_stops _ := rfl
  induction one snoc := fun ⟨_, args⟩ => Arguments.induction one (fun args s => snoc args () s) args

/-- The tokens that go on with some arguments: a comma, and what goes on with the last of them. -/
def Arguments.goesOn : Token → Bool
  | .comma => true
  | t => Rank.sum.goesOn t

theorem Arguments.goesOn_of_sum {t : Token} (h : Rank.sum.goesOn t = true) :
    Arguments.goesOn t = true := by
  cases t with
  | comma => rfl
  | _ => exact h

/-! ## Phrases -/

namespace Phrase

/-- A power begins with no operator, so a sign before one is seen. -/
theorem head_ne_op : ∀ {k : Rank} (q : Phrase k), Rank.power.tightness ≤ k.tightness →
    ∀ (op : BinOp) (ts ts' : List Token), q.tokens ++ ts ≠ .op op :: ts'
  | _, .num _, _, _, _, _ => by simp [tokens]
  | _, .name _ _, _, _, _, _ => by simp [tokens]
  | _, .group _, _, _, _, _ => by simp [tokens]
  | _, .call _ _ _, _, _, _, _ => by simp [tokens]
  | _, .ofAtom a, _, op, ts, ts' => by
      rw [tokens]
      exact head_ne_op a (by decide) op ts ts'
  | _, .pow a b, _, op, ts, ts' => by
      rw [tokens, List.append_assoc]
      exact head_ne_op a (by decide) op _ ts'

/-- What the uniqueness of a phrase is by induction: of a sequence it is the comparison by parts. -/
def Unique : {k : Rank} → Phrase k → Prop
  | .sum, s => sums.ReadsUpTo s
  | .product, p => products.ReadsUpTo p
  | .signed, s => ReadsOnce tokens Rank.signed.goesOn s
  | .power, p => ReadsOnce tokens Rank.power.goesOn p
  | .atom, a => ReadsOnce tokens Rank.atom.goesOn a

theorem goesOn_mono {k m : Rank} (h : k.tightness ≤ m.tightness) (t : Token)
    (ht : m.goesOn t = true) : k.goesOn t = true := by
  cases t with
  | op op =>
      simp only [Rank.goesOn, decide_eq_true_eq] at ht ⊢
      exact Nat.le_trans h ht
  | _ => simp [Rank.goesOn] at ht

theorem Unique.readsOnce : ∀ {k : Rank} {q : Phrase k}, q.Unique → ReadsOnce tokens k.goesOn q
  | .sum, _, h => Chain.ReadsUpTo.readsOnce h (goesOn_mono (by decide))
      (fun op => by simp [sums, Rank.goesOn, op.2])
  | .product, _, h => Chain.ReadsUpTo.readsOnce h (goesOn_mono (by decide))
      (fun op => by simp [products, Rank.goesOn, op.2])
  | .signed, _, h => h
  | .power, _, h => h
  | .atom, _, h => h

theorem stops_nil (goesOn : Token → Bool) : Stops goesOn [] := by
  intro t ht; simp at ht

/-- What stops a power stops an exponent with a sign as well: no operator is between the two. -/
theorem stops_exponent {ts : List Token} (h : Stops Rank.power.goesOn ts) :
    Stops Rank.signed.goesOn ts := by
  intro t ht
  have := h t ht
  revert this
  cases t with
  | op op => cases op <;> decide
  | _ => exact fun _ => rfl

/-- Nothing goes on with an atom. -/
theorem stops_atom (ts : List Token) : Stops Rank.atom.goesOn ts := by
  intro t _
  cases t with
  | op op => cases op <;> rfl
  | _ => rfl

theorem unique_num (v : Float) : (Phrase.num v).Unique := by
  intro a' k k' h _ _
  cases a' with
  | num v' => simpa [tokens] using h
  | name x free => simp [tokens] at h
  | group s => simp [tokens] at h
  | call f args accepted => simp [tokens] at h

theorem unique_name {x : String} (free : Builtin.ofName? x = none) :
    (Phrase.name x free).Unique := by
  intro a' k k' h _ _
  cases a' with
  | num v' => simp [tokens] at h
  | name x' free' => simpa [tokens] using h
  | group s => simp [tokens] at h
  | call f args accepted =>
      -- the name would be a function's
      simp only [tokens, List.cons_append, List.cons.injEq, Token.ident.injEq] at h
      rw [h.1, Builtin.ofName?_name] at free
      simp at free

theorem Unique.group {s : Phrase .sum} (hs : s.Unique) : (Phrase.group s).Unique := by
  intro a' k k' h _ _
  cases a' with
  | num v' => simp [tokens] at h
  | name x free => simp [tokens] at h
  | group s' =>
      simp only [tokens, List.cons_append, List.cons.injEq, true_and, List.append_assoc,
        List.nil_append] at h
      obtain ⟨rfl, hk⟩ := hs.readsOnce s' _ _ h (Stops.cons rfl) (Stops.cons rfl)
      exact ⟨rfl, by simpa using hk⟩
  | call f args accepted => simp [tokens] at h

theorem Unique.call {f : Builtin} {n : Nat} {args : Arguments n} {accepted : f.arity.accepts n}
    (hargs : argumentLists.ReadsUpTo ⟨n, args⟩) : (Phrase.call f args accepted).Unique := by
  intro a' k k' h _ _
  cases a' with
  | num v' => simp [tokens] at h
  | name x free =>
      simp only [tokens, List.cons_append, List.cons.injEq, Token.ident.injEq] at h
      rw [← h.1, Builtin.ofName?_name] at free
      simp at free
  | group s => simp [tokens] at h
  | @call n' f' args' accepted' =>
      simp only [tokens, List.cons_append, List.cons.injEq, Token.ident.injEq, true_and,
        List.append_assoc, List.nil_append] at h
      obtain ⟨hf, h⟩ := h
      have hname : f = f' := by
        rw [← Option.some.injEq, ← Builtin.ofName?_name f, ← Builtin.ofName?_name f', hf]
      subst hname
      have honce : ReadsOnce argumentLists.tokens Arguments.goesOn ⟨n, args⟩ :=
        hargs.readsOnce (fun t ht => Arguments.goesOn_of_sum ht) (fun _ => rfl)
      obtain ⟨he, hk⟩ := honce ⟨n', args'⟩ _ _ h (Stops.cons rfl) (Stops.cons rfl)
      simp only [Sigma.mk.injEq] at he
      obtain ⟨rfl, he⟩ := he
      obtain rfl := eq_of_heq he
      exact ⟨rfl, by simpa using hk⟩

theorem Unique.ofAtom {a : Phrase .atom} (ha : a.Unique) : (Phrase.ofAtom a).Unique := by
  intro p' k k' h hk _
  cases p' with
  | ofAtom a' =>
      obtain ⟨rfl, rfl⟩ := ha.readsOnce a' k k' h (stops_atom _) (stops_atom _)
      exact ⟨rfl, rfl⟩
  | pow a' b' =>
      -- then the operator of the power follows the atom, and it does not stop one
      simp only [tokens, List.append_assoc] at h
      obtain ⟨-, rfl⟩ := ha.readsOnce a' k _ h (stops_atom _) (stops_atom _)
      exact absurd (hk _ rfl) (by decide)

theorem Unique.pow {a : Phrase .atom} {b : Phrase .signed} (ha : a.Unique) (hb : b.Unique) :
    (Phrase.pow a b).Unique := by
  intro p' k k' h hk hk'
  simp only [tokens, List.append_assoc] at h
  cases p' with
  | ofAtom a' =>
      obtain ⟨-, rfl⟩ := ha.readsOnce a' _ k' h (stops_atom _) (stops_atom _)
      exact absurd (hk' _ rfl) (by decide)
  | pow a' b' =>
      simp only [tokens, List.append_assoc] at h
      obtain ⟨rfl, h₁⟩ := ha.readsOnce a' _ _ h (stops_atom _) (stops_atom _)
      simp only [List.cons_append, List.cons.injEq, true_and] at h₁
      obtain ⟨rfl, rfl⟩ := hb.readsOnce b' k k' h₁ (stops_exponent hk) (stops_exponent hk')
      exact ⟨rfl, rfl⟩

/-- A phrase with at most one sign is told by its first token: the powers are compared then. -/
theorem Unique.signed {p : Phrase .power} (hp : p.Unique) :
    (Phrase.ofPower p).Unique ∧ (Phrase.plus p).Unique ∧ (Phrase.minus p).Unique := by
  have hstop : ∀ {ts : List Token}, Stops Rank.signed.goesOn ts → Stops Rank.power.goesOn ts :=
    fun hts => hts.mono (goesOn_mono (by decide))
  refine ⟨?_, ?_, ?_⟩
  · intro s' k k' h hk hk'
    cases s' with
    | ofPower p' =>
        obtain ⟨rfl, rfl⟩ := hp.readsOnce p' k k' h (hstop hk) (hstop hk')
        exact ⟨rfl, rfl⟩
    | plus p' => exact absurd h (p.head_ne_op (by decide) _ _ _)
    | minus p' => exact absurd h (p.head_ne_op (by decide) _ _ _)
  · intro s' k k' h hk hk'
    cases s' with
    | ofPower p' => exact absurd h.symm (p'.head_ne_op (by decide) _ _ _)
    | plus p' =>
        simp only [tokens, List.cons_append, List.cons.injEq, true_and] at h
        obtain ⟨rfl, rfl⟩ := hp.readsOnce p' k k' h (hstop hk) (hstop hk')
        exact ⟨rfl, rfl⟩
    | minus p' => simp [tokens] at h
  · intro s' k k' h hk hk'
    cases s' with
    | ofPower p' => exact absurd h.symm (p'.head_ne_op (by decide) _ _ _)
    | plus p' => simp [tokens] at h
    | minus p' =>
        simp only [tokens, List.cons_append, List.cons.injEq, true_and] at h
        obtain ⟨rfl, rfl⟩ := hp.readsOnce p' k k' h (hstop hk) (hstop hk')
        exact ⟨rfl, rfl⟩

end Phrase

mutual

theorem Phrase.unique : ∀ {k : Rank} (q : Phrase k), q.Unique
  | _, .num v => Phrase.unique_num v
  | _, .name _ free => Phrase.unique_name free
  | _, .group s => s.unique.group
  | _, .call _ args _ => .call args.readsUpTo
  | _, .ofAtom a => a.unique.ofAtom
  | _, .pow a b => a.unique.pow b.unique
  | _, .ofPower p => p.unique.signed.1
  | _, .plus p => p.unique.signed.2.1
  | _, .minus p => p.unique.signed.2.2
  | _, .ofSigned s => products.readsUpTo_one s.unique
  | _, .mul op scales p s => products.readsUpTo_snoc (s := ⟨op, scales⟩) p.unique s.unique
  | _, .ofProduct p => sums.readsUpTo_one p.unique.readsOnce
  | _, .add op adds s p => sums.readsUpTo_snoc (s := ⟨op, adds⟩) s.unique p.unique.readsOnce

theorem Arguments.readsUpTo : ∀ {n : Nat} (args : Arguments n),
    argumentLists.ReadsUpTo ⟨n, args⟩
  | _, .one s => argumentLists.readsUpTo_one s.unique.readsOnce
  | _, .more args s => argumentLists.readsUpTo_snoc (s := ()) args.readsUpTo s.unique.readsOnce

end

/-- **The grammar is unambiguous**: a text has one derivation at most. -/
theorem Phrase.tokens_injective (k : Rank) : Function.Injective (Phrase.tokens : Phrase k → _) := by
  intro q q' h
  have he : q.tokens ++ [] = q'.tokens ++ [] := by rw [h]
  exact (q.unique.readsOnce q' [] [] he (Phrase.stops_nil _) (Phrase.stops_nil _)).1

end Reckon
