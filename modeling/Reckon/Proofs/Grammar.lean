import Reckon.Listing.Reading
import Reckon.Expr

/-!
# The grammar of expressions

What counts as an expression, said without the reader. A `Phrase` is a derivation tree of the
grammar

* a **sum** is a product, or a sum, `+` or `-`, and a product;
* a **product** is a signed phrase, or a product, `*` or `/`, and a signed phrase;
* a **signed** phrase is a power with at most one sign before it;
* a **power** is an atom, or an atom, `^`, and a signed phrase;
* an **atom** is a number, a name that is no function's, a sum in parentheses, or a function's name
  with as many sums in parentheses as it accepts.

Each nonterminal is a `Rank`, and a phrase that breaks a rule cannot be built. `tokens` is the text
that a phrase derives and `tree` the expression that it stands for: a plus sign and a pair of
parentheses leave no trace in it.

That the reader accepts exactly the texts of phrases is proved in
`Reckon/Proofs/Grammar/Accepted.lean` and `Reckon/Proofs/Grammar/Derived.lean`, and that no text has
two phrases in `Reckon/Proofs/Grammar/Unambiguous.lean`.
-/

namespace Reckon

/-- The nonterminals of the grammar, from the loosest to the tightest. -/
inductive Rank
  | sum | product | signed | power | atom
deriving DecidableEq, Repr

/-- How tightly a phrase of a rank holds together, on the scale of the operators. -/
def Rank.tightness : Rank → Nat
  | sum => 1
  | product => 2
  | signed => 3
  | power => 4
  | atom => 5

namespace BinOp

/-- The rank of what an operator makes. -/
def rank : BinOp → Rank
  | add | sub => .sum
  | mul | div => .product
  | pow => .power

/-- The rank of the left operand: a power alone does not take another of its kind there. -/
def leftRank : BinOp → Rank
  | add | sub => .sum
  | mul | div => .product
  | pow => .atom

/-- The rank of the right operand. An exponent may have a sign of its own. -/
def rightRank : BinOp → Rank
  | add | sub => .product
  | mul | div | pow => .signed

/-- An operator makes phrases as tight as it binds. -/
theorem tightness_rank (op : BinOp) : op.rank.tightness = (Operator.bin op).tightness := by
  cases op <;> rfl

theorem operands_of_sum {op : BinOp} (h : op.rank = .sum) :
    op.leftRank = .sum ∧ op.rightRank = .product := by
  revert h
  cases op <;> decide

theorem operands_of_product {op : BinOp} (h : op.rank = .product) :
    op.leftRank = .product ∧ op.rightRank = .signed := by
  revert h
  cases op <;> decide

end BinOp

mutual

/-- A derivation tree of the grammar, by the nonterminal at its root. -/
inductive Phrase : Rank → Type
  | num (v : Float) : Phrase .atom
  | name (x : String) (free : Builtin.ofName? x = none) : Phrase .atom
  | group (s : Phrase .sum) : Phrase .atom
  | call {n : Nat} (f : Builtin) (args : Arguments n) (accepted : f.arity.accepts n) : Phrase .atom
  | ofAtom (a : Phrase .atom) : Phrase .power
  | pow (a : Phrase .atom) (b : Phrase .signed) : Phrase .power
  | ofPower (p : Phrase .power) : Phrase .signed
  | plus (p : Phrase .power) : Phrase .signed
  | minus (p : Phrase .power) : Phrase .signed
  | ofSigned (s : Phrase .signed) : Phrase .product
  | mul (op : BinOp) (scales : op.rank = .product) (p : Phrase .product) (s : Phrase .signed) :
      Phrase .product
  | ofProduct (p : Phrase .product) : Phrase .sum
  | add (op : BinOp) (adds : op.rank = .sum) (s : Phrase .sum) (p : Phrase .product) : Phrase .sum

/-- The arguments of a call, by their number, which is never zero. -/
inductive Arguments : Nat → Type
  | one (s : Phrase .sum) : Arguments 1
  | more {n : Nat} (args : Arguments n) (s : Phrase .sum) : Arguments (n + 1)

end

mutual

/-- The text of a phrase. -/
def Phrase.tokens : {k : Rank} → Phrase k → List Token
  | _, .num v => [.num v]
  | _, .name x _ => [.ident x]
  | _, .group s => .lpar :: (s.tokens ++ [.rpar])
  | _, .call f args _ => .ident f.name :: .lpar :: (args.tokens ++ [.rpar])
  | _, .ofAtom a => a.tokens
  | _, .pow a b => a.tokens ++ .op .pow :: b.tokens
  | _, .ofPower p => p.tokens
  | _, .plus p => .op .add :: p.tokens
  | _, .minus p => .op .sub :: p.tokens
  | _, .ofSigned s => s.tokens
  | _, .mul op _ p s => p.tokens ++ .op op :: s.tokens
  | _, .ofProduct p => p.tokens
  | _, .add op _ s p => s.tokens ++ .op op :: p.tokens

/-- The text of some arguments, with a comma between any two. -/
def Arguments.tokens : {n : Nat} → Arguments n → List Token
  | _, .one s => s.tokens
  | _, .more args s => args.tokens ++ .comma :: s.tokens

end

mutual

/-- The expression that a phrase stands for. -/
def Phrase.tree : {k : Rank} → Phrase k → Expr
  | _, .num v => .num v
  | _, .name x _ => .var x
  | _, .group s => s.tree
  | _, .call f args _ => .call f args.trees
  | _, .ofAtom a => a.tree
  | _, .pow a b => .bin .pow a.tree b.tree
  | _, .ofPower p => p.tree
  | _, .plus p => p.tree
  | _, .minus p => .neg p.tree
  | _, .ofSigned s => s.tree
  | _, .mul op _ p s => .bin op p.tree s.tree
  | _, .ofProduct p => p.tree
  | _, .add op _ s p => .bin op s.tree p.tree

/-- The expressions that some arguments stand for. -/
def Arguments.trees : {n : Nat} → Arguments n → List Expr
  | _, .one s => [s.tree]
  | _, .more args s => args.trees ++ [s.tree]

end

/-- To prove something of all rows of arguments, add them one at a time. -/
theorem Arguments.induction {motive : (n : Nat) × Arguments n → Prop}
    (one : ∀ s, motive ⟨1, .one s⟩)
    (snoc : ∀ (args : (n : Nat) × Arguments n) s, motive args →
      motive ⟨args.1 + 1, .more args.2 s⟩) : ∀ {n : Nat} (args : Arguments n), motive ⟨n, args⟩
  | _, .one s => one s
  | _, .more args s => snoc ⟨_, args⟩ s (Arguments.induction one snoc args)

theorem Arguments.length_trees {n : Nat} (args : Arguments n) : args.trees.length = n := by
  cases args with
  | one s => simp [Arguments.trees]
  | more args s => simp [Arguments.trees, args.length_trees]

theorem Expr.itemsOfAll_append (as bs : List Expr) :
    itemsOfAll (as ++ bs) = itemsOfAll as ++ itemsOfAll bs := by
  induction as with
  | nil => rfl
  | cons a as ih => simp [itemsOfAll, ih]

namespace Phrase

/-- Two operands with the operator between them, whatever the operator. -/
def bin : (op : BinOp) → Phrase op.leftRank → Phrase op.rightRank → Phrase op.rank
  | .add, a, b => .add .add rfl a b
  | .sub, a, b => .add .sub rfl a b
  | .mul, a, b => .mul .mul rfl a b
  | .div, a, b => .mul .div rfl a b
  | .pow, a, b => .pow a b

@[simp] theorem tokens_bin (op : BinOp) (a : Phrase op.leftRank) (b : Phrase op.rightRank) :
    (bin op a b).tokens = a.tokens ++ .op op :: b.tokens := by
  cases op <;> rfl

@[simp] theorem tree_bin (op : BinOp) (a : Phrase op.leftRank) (b : Phrase op.rightRank) :
    (bin op a b).tree = .bin op a.tree b.tree := by
  cases op <;> rfl

/-! ## Phrases as looser ones

A rank below the sum has one rank that is next looser, and a phrase becomes one of it by a single
constructor; a phrase of any rank is brought to a looser one in these steps. -/

theorem exists_power {m : Rank} (q : Phrase m) (h : Rank.power.tightness ≤ m.tightness) :
    ∃ p : Phrase .power, p.tokens = q.tokens ∧ p.tree = q.tree := by
  cases m with
  | atom => exact ⟨.ofAtom q, by simp only [tokens], by simp only [tree]⟩
  | power => exact ⟨q, rfl, rfl⟩
  | _ => exact absurd h (by decide)

theorem exists_signed {m : Rank} (q : Phrase m) (h : Rank.signed.tightness ≤ m.tightness) :
    ∃ s : Phrase .signed, s.tokens = q.tokens ∧ s.tree = q.tree := by
  by_cases hm : m = .signed
  · subst hm
    exact ⟨q, rfl, rfl⟩
  · have htight : Rank.power.tightness ≤ m.tightness := by
      revert h hm
      cases m <;> decide
    obtain ⟨p, hp, hp'⟩ := q.exists_power htight
    exact ⟨.ofPower p, by simp only [tokens, hp], by simp only [tree, hp']⟩

theorem exists_product {m : Rank} (q : Phrase m) (h : Rank.product.tightness ≤ m.tightness) :
    ∃ p : Phrase .product, p.tokens = q.tokens ∧ p.tree = q.tree := by
  by_cases hm : m = .product
  · subst hm
    exact ⟨q, rfl, rfl⟩
  · have htight : Rank.signed.tightness ≤ m.tightness := by
      revert h hm
      cases m <;> decide
    obtain ⟨s, hs, hs'⟩ := q.exists_signed htight
    exact ⟨.ofSigned s, by simp only [tokens, hs], by simp only [tree, hs']⟩

theorem exists_sum {m : Rank} (q : Phrase m) :
    ∃ s : Phrase .sum, s.tokens = q.tokens ∧ s.tree = q.tree := by
  by_cases hm : m = .sum
  · subst hm
    exact ⟨q, rfl, rfl⟩
  · have htight : Rank.product.tightness ≤ m.tightness := by
      revert hm
      cases m <;> decide
    obtain ⟨p, hp, hp'⟩ := q.exists_product htight
    exact ⟨.ofProduct p, by simp only [tokens, hp], by simp only [tree, hp']⟩

/-- A phrase counts as one of any looser rank, with the same text and tree. -/
theorem exists_loosen {k m : Rank} (q : Phrase m) (h : k.tightness ≤ m.tightness) :
    ∃ q' : Phrase k, q'.tokens = q.tokens ∧ q'.tree = q.tree := by
  cases k with
  | sum => exact q.exists_sum
  | product => exact q.exists_product h
  | signed => exact q.exists_signed h
  | power => exact q.exists_power h
  | atom =>
      obtain rfl : m = .atom := by
        revert h
        cases m <;> decide
      exact ⟨q, rfl, rfl⟩

/-- An expression with one more factor at its end is one; its last product takes the factor in. -/
theorem exists_scaled (q : Phrase .sum) {op : BinOp} (scales : op.rank = .product)
    (s : Phrase .signed) : ∃ q' : Phrase .sum, q'.tokens = q.tokens ++ .op op :: s.tokens := by
  cases q with
  | ofProduct p => exact ⟨.ofProduct (.mul op scales p s), by simp only [tokens]⟩
  | add op' adds t p =>
      refine ⟨.add op' adds t (.mul op scales p s), ?_⟩
      simp only [tokens, List.append_assoc, List.cons_append]

end Phrase

end Reckon
