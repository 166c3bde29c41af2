import Reckon.Proofs.Display.Tokens
import Reckon.Proofs.Stages

/-!
# Reading a displayed tree back

The parentheses of a displayed tree are the right ones: its tokens derive from the grammar, and what
they stand for is the tree itself, up to the signs of its literals. A number that has a sign is
written as the opposite of its magnitude, and so it is read.

One literal is not as tight as the printer takes it to be. A zero with a sign is not less than zero,
so it counts as an atom, and its sign stands where no sign should: before a power, which then comes
under the sign (`reread`), or right after another sign, where nothing can be read at all
(`SignsMeet`). Away from these two places the tree comes back as it was; `ofText_render` says what
comes back in general, and `not_ofText_render` that nothing does where signs meet.
-/

namespace Reckon

namespace Expr

/-- Whether the text of a tree begins with a sign although the tree counts as tight: a zero with a
sign, or a power of one. -/
def hidesSign : Expr → Bool
  | num v => decide (v = -0)
  | bin .pow (num v) _ => decide (v = -0)
  | _ => false

/-- Some part of a tree has a property. -/
inductive Within (p : Expr → Prop) : Expr → Prop
  | here {e : Expr} (h : p e) : Within p e
  | neg {e : Expr} (h : Within p e) : Within p (neg e)
  | left {op : BinOp} {a b : Expr} (h : Within p a) : Within p (bin op a b)
  | right {op : BinOp} {a b : Expr} (h : Within p b) : Within p (bin op a b)
  | argument {f : Builtin} {args : List Expr} {a : Expr} (ha : a ∈ args) (h : Within p a) :
      Within p (call f args)

/-- Somewhere in a tree a sign is written right before a hidden sign. -/
def SignsMeet : Expr → Prop := Within fun e => ∃ c, e = neg c ∧ c.hidesSign = true

mutual

/-- What the text of a tree is read as. The sign of a literal becomes an opposite, over the whole
power if the literal is the base of one, and infinity becomes a name. -/
def reread : Expr → Expr
  | num v =>
    if v.isFinite then
      if Number.isSigned v then neg (num v.abs) else num v.abs
    else var (Number.text v)
  | var x => var x
  | neg e => neg e.reread
  | bin op a b =>
    if (bin op a b).hidesSign then neg (bin op (num 0) b.reread) else bin op a.reread b.reread
  | call f args => call f (rereadAll args)

/-- As `reread`, on each of some trees. -/
def rereadAll : List Expr → List Expr
  | [] => []
  | a :: args => a.reread :: rereadAll args

end

theorem rereadAll_eq_map (args : List Expr) : rereadAll args = args.map reread := by
  induction args with
  | nil => rfl
  | cons a args ih => rw [rereadAll, ih, List.map_cons]

/-! ## A tree without meeting signs is displayed as a phrase -/

/-- A phrase between parentheses if they are needed, at any place that it is tight enough for. -/
theorem exists_enclosed {k m : Rank} (q : Phrase m) (needed : Bool)
    (h : needed = false → k.tightness ≤ m.tightness) :
    ∃ q' : Phrase k, q'.tokens = Token.enclose needed q.tokens ∧ q'.tree = q.tree := by
  cases needed with
  | false => exact q.exists_loosen (h rfl)
  | true =>
      obtain ⟨s, hs, hs'⟩ := q.exists_sum
      obtain ⟨q', hq, hq'⟩ := (Phrase.group s).exists_loosen (k := k) (by cases k <;> decide)
      refine ⟨q', ?_, ?_⟩
      · rw [hq, Phrase.tokens, hs]
        rfl
      · rw [hq', Phrase.tree, hs']

/-- A place that asks for a least tightness and takes phrases of a rank. The rank may not be
tighter than what is asked for; and a tree that hides a sign is no tighter than a sign, whatever
is asked for. -/
structure Suits (e : Expr) (least : Nat) (k : Rank) : Prop where
  tight : k = .sum ∨ k.tightness ≤ least
  hidden : e.hidesSign = true → least ≤ e.tightness → k.tightness ≤ Rank.signed.tightness

/-- What a tree is displayed as. -/
def Displayed (e : Expr) : Prop :=
  ∀ (least : Nat) (k : Rank), e.Suits least k →
    ∃ q : Phrase k, q.tokens = e.tokensAt least ∧ q.tree = e.reread

theorem tightness_pos (e : Expr) : Rank.sum.tightness ≤ e.tightness := by
  cases e with
  | num v =>
      change 1 ≤ if v < 0 then 3 else 5
      split <;> decide
  | var x => exact Nat.le_add_left 1 4
  | neg e => exact Operator.neg.tightness_pos
  | bin op a b => exact (Operator.bin op).tightness_pos
  | call f args => exact Nat.le_add_left 1 4

/-- It is enough to find a phrase for the tree without parentheses around it, as tight as the tree
counts or, if it hides a sign, as tight as a sign. -/
theorem displayed_of_phrase {e : Expr} {m : Rank} {ts : List Token}
    (hts : ∀ least, e.tokensAt least = Token.enclose (e.tightness < least) ts) (q : Phrase m)
    (hq : q.tokens = ts) (hq' : q.tree = e.reread)
    (hm : m.tightness = if e.hidesSign then Rank.signed.tightness else e.tightness) :
    e.Displayed := by
  intro least k hk
  rw [hts, ← hq, ← hq']
  refine exists_enclosed q _ fun hneeded => ?_
  have hle : least ≤ e.tightness := Nat.not_lt.mp (of_decide_eq_false hneeded)
  rw [hm]
  split
  · exact hk.hidden ‹_› hle
  · rcases hk.tight with rfl | htight
    · exact e.tightness_pos
    · exact Nat.le_trans htight hle

/-- A number with a sign is displayed as the opposite of its magnitude. -/
theorem displayed_num_signed {v : Float} (h : v.isFinite = true)
    (hs : Number.isSigned v = true) : (num v).Displayed := by
  refine displayed_of_phrase (m := .signed) (fun _ => rfl) (.minus (.ofAtom (.num v.abs))) ?_ ?_ ?_
  · rw [Token.ofNumber, if_pos h, if_pos hs]
    rfl
  · rw [reread, if_pos h, if_pos hs]
    rfl
  · -- of the numbers with a sign only zero counts as tighter than the sign
    have hlt := Number.lt_zero_iff h
    by_cases hz : v = -0
    · simp [hidesSign, hz]
    · simp [hidesSign, hz, tightness, hlt, hs, Rank.tightness]

/-- A number without a sign is its own magnitude. -/
theorem displayed_num_unsigned {v : Float} (h : v.isFinite = true)
    (hs : Number.isSigned v = false) : (num v).Displayed := by
  have hz : v ≠ -0 := by
    rintro rfl
    exact absurd hs (by decide +kernel)
  have hlt : ¬ v < 0 := fun hv => by
    rw [((Number.lt_zero_iff h).1 hv).1] at hs
    cases hs
  refine displayed_of_phrase (m := .atom) (fun _ => rfl) (.num v.abs) ?_ ?_ ?_
  · rw [Token.ofNumber, if_pos h, hs]
    rfl
  · rw [reread, if_pos h, hs]
    rfl
  · simp [hidesSign, hz, tightness, hlt, Rank.tightness]

/-- Infinity is displayed as a word that is no function's name. -/
theorem displayed_infinite : (num Number.infinite).Displayed := by
  have hfree : Builtin.ofName? (Number.text Number.infinite) = none := by
    rw [Number.text_infinite]
    decide
  have hz : Number.infinite ≠ -0 := by decide +kernel
  refine displayed_of_phrase (m := .atom) (fun _ => rfl) (.name _ hfree) ?_ ?_ ?_
  · rw [Token.ofNumber, Number.isFinite_infinite]
    rfl
  · rw [reread, Number.isFinite_infinite]
    rfl
  · simp [hidesSign, hz, tightness, Number.not_infinite_lt_zero, Rank.tightness]

theorem displayed_num {v : Float} (h : Token.IsLiteral v) : (num v).Displayed := by
  rcases h with h | rfl
  · cases hs : Number.isSigned v with
    | true => exact displayed_num_signed h hs
    | false => exact displayed_num_unsigned h hs
  · exact displayed_infinite

theorem displayed_neg {e : Expr} (he : e.Displayed) (h : e.hidesSign = false) :
    (neg e).Displayed := by
  obtain ⟨p, hp, hp'⟩ := he signedTightness .power
    ⟨.inr (Nat.le_refl _), fun hh => by rw [h] at hh; cases hh⟩
  refine displayed_of_phrase (m := .signed) (fun _ => rfl) (.minus p) ?_ ?_ rfl
  · rw [Phrase.tokens, hp]
  · rw [Phrase.tree, hp', reread]

/-- Among the applications of an operator only the powers of a zero with a sign hide one. -/
theorem eq_of_hidesSign_bin {op : BinOp} {a b : Expr} (h : (bin op a b).hidesSign = true) :
    op = .pow ∧ a = num (-0) := by
  unfold hidesSign at h
  split at h
  · rename_i heq
    cases heq
  · rename_i v c heq
    obtain ⟨rfl, rfl, -⟩ := bin.inj heq
    exact ⟨rfl, congrArg num (of_decide_eq_true h)⟩
  · cases h

theorem tightness_negZero : (num (-0)).tightness = Rank.atom.tightness := by
  have hlt : ¬ (-0 : Float) < 0 := by decide +kernel
  rw [tightness, if_neg hlt]
  rfl

/-- A zero with a sign is displayed without parentheses at every place. -/
theorem tokensAt_negZero (least : Nat) (h : least ≤ Rank.atom.tightness) :
    (num (-0)).tokensAt least = [.op .sub, .num 0] := by
  have hnumber : Token.ofNumber (-0) = [.op .sub, .num 0] := by decide +kernel
  rw [tokensAt, tightness_negZero, decide_eq_false (Nat.not_lt.mpr h), hnumber]
  rfl

/-- The left operand of an operator stands at a place for its rank, unless it is a zero with a sign
under a power. -/
theorem suits_left {op : BinOp} {a b : Expr} (h : (bin op a b).hidesSign = false) :
    a.Suits (leftTightness op) op.leftRank where
  tight := by cases op <;> decide
  hidden := by
    intro ha hle
    cases op with
    | pow =>
        -- as a base a power is put between parentheses, so only a literal could hide a sign
        cases a with
        | num v =>
            simp only [hidesSign] at ha h
            rw [ha] at h
            cases h
        | bin op a c =>
            obtain ⟨rfl, -⟩ := eq_of_hidesSign_bin ha
            have hle : 5 ≤ 4 := hle
            omega
        | _ => cases ha
    | _ => decide

theorem suits_right (op : BinOp) (b : Expr) : b.Suits (rightTightness op) op.rightRank where
  tight := by cases op <;> decide
  hidden := fun _ _ => by cases op <;> decide

theorem displayed_bin {op : BinOp} {a b : Expr} (ha : a.Displayed) (hb : b.Displayed) :
    (bin op a b).Displayed := by
  obtain ⟨q, hq, hq'⟩ := hb _ _ (suits_right op b)
  cases h : (bin op a b).hidesSign with
  | true =>
      -- the sign of the base begins the text, and the power of zero stands under it
      obtain ⟨rfl, rfl⟩ := eq_of_hidesSign_bin h
      obtain ⟨p, hp, hp'⟩ : ∃ p : Phrase .power,
          p.tokens = .num 0 :: .op .pow :: b.tokensAt (rightTightness .pow)
          ∧ p.tree = bin .pow (num 0) b.reread :=
        ⟨.bin .pow (.num 0) q, by rw [← hq]; exact Phrase.tokens_bin .pow (.num 0) q,
          by rw [← hq']; exact Phrase.tree_bin .pow (.num 0) q⟩
      refine displayed_of_phrase (m := .signed) (fun _ => rfl) (.minus p) ?_ ?_ ?_
      · rw [Phrase.tokens, hp, tokensAt_negZero (leftTightness .pow) (Nat.le_refl _)]
        rfl
      · rw [Phrase.tree, hp', reread, h]
        rfl
      · rw [h]
        rfl
  | false =>
      obtain ⟨p, hp, hp'⟩ := ha _ _ (suits_left h)
      refine displayed_of_phrase (fun _ => rfl) (.bin op p q) ?_ ?_ ?_
      · rw [Phrase.tokens_bin, hp, hq]
      · rw [Phrase.tree_bin, hp', hq', reread, h]
        rfl
      · rw [h, BinOp.tightness_rank]
        rfl

theorem suits_sum (e : Expr) (least : Nat) : e.Suits least .sum :=
  ⟨.inl rfl, fun _ _ => by decide⟩

/-- More arguments after some that are displayed already. -/
theorem exists_more_arguments {args : List Expr} (h : ∀ a ∈ args, a.Displayed) {n : Nat}
    (some : Arguments n) :
    ∃ m, m = n + args.length ∧ ∃ all : Arguments m,
      all.tokens = some.tokens ++ tokensOfAll [.comma] args
      ∧ all.trees = some.trees ++ args.map reread := by
  induction args generalizing n with
  | nil => exact ⟨n, rfl, some, by rw [tokensOfAll, List.append_nil], by simp⟩
  | cons a args ih =>
      obtain ⟨s, hs, hs'⟩ := h a (.head _) 0 .sum (a.suits_sum 0)
      obtain ⟨m, hm, all, hall, hall'⟩ := ih (fun b hb => h b (.tail _ hb)) (.more some s)
      refine ⟨m, by rw [hm, List.length_cons]; omega, all, ?_, ?_⟩
      · rw [hall, Arguments.tokens, hs, tokensOfAll]
        simp
      · rw [hall', Arguments.trees, hs', List.map_cons]
        simp

theorem displayed_call {f : Builtin} {args : List Expr} (h : ∀ a ∈ args, a.Displayed)
    (accepted : f.arity.accepts args.length = true) : (call f args).Displayed := by
  cases args with
  | nil => cases f <;> cases accepted
  | cons a args =>
      obtain ⟨s, hs, hs'⟩ := h a (.head _) 0 .sum (a.suits_sum 0)
      obtain ⟨m, hm, all, hall, hall'⟩ :=
        exists_more_arguments (fun b hb => h b (.tail _ hb)) (.one s)
      have haccepted : f.arity.accepts m = true := by
        rw [hm, Nat.add_comm]
        exact accepted
      refine displayed_of_phrase (m := .atom) (fun _ => rfl) (.call f all haccepted) ?_ ?_ rfl
      · rw [Phrase.tokens, hall, Arguments.tokens, hs]
        rfl
      · rw [Phrase.tree, hall', Arguments.trees, hs', reread, rereadAll_eq_map]
        rfl

/-- **Where no signs meet, a tree is displayed as a phrase** for what it is read as. -/
theorem displayed {e : Expr} (h : e.Readable Token.IsLiteral) (hmeet : ¬ e.SignsMeet) :
    e.Displayed := by
  induction h with
  | num hv => exact displayed_num hv
  | var spelled free =>
      refine displayed_of_phrase (m := .atom) (fun _ => rfl) (.name _ free) rfl ?_ rfl
      rw [Phrase.tree, reread]
  | @neg e he ih =>
      have hhere : e.hidesSign = false := by
        rw [← Bool.not_eq_true]
        exact fun hh => hmeet (.here ⟨e, rfl, hh⟩)
      exact displayed_neg (ih fun hm => hmeet (.neg hm)) hhere
  | bin ha hb iha ihb =>
      exact displayed_bin (iha fun hm => hmeet (.left hm)) (ihb fun hm => hmeet (.right hm))
  | call accepted hargs ih =>
      exact displayed_call (fun a ha => ih a ha fun hm => hmeet (.argument ha hm)) accepted

end Expr

/-- **What is displayed is read back.** The text of a tree in which no signs meet is read as the
tree with the signs of its literals taken out. -/
theorem Parsed.ofText_render {e : Expr} (h : e.Readable Token.IsLiteral) (hmeet : ¬ e.SignsMeet) :
    Parsed.ofText (Text.compact e.render) = .ok ⟨e.tokensAt 0, e.reread.listing, e.reread⟩ := by
  obtain ⟨q, hq, hq'⟩ := Expr.displayed h hmeet 0 .sum (e.suits_sum 0)
  rw [← hq, ← hq']
  exact Parsed.ofText_eq (by rw [Token.scan_render h, hq])

/-! ## Where signs meet nothing is read -/

namespace Token

/-- An operand is due after the token. -/
def Opens (t : Token) : Prop := t = .lpar ∨ t = .comma ∨ ∃ op, t = .op op

/-- Two minus signs in a row stand where an operand is due. -/
inductive Jammed : List Token → Prop
  | first (after : List Token) : Jammed (.op .sub :: .op .sub :: after)
  | later (before : List Token) {t : Token} (ht : t.Opens) (after : List Token) :
      Jammed (before ++ t :: .op .sub :: .op .sub :: after)

theorem Jammed.append {ts : List Token} (h : Jammed ts) (us : List Token) : Jammed (ts ++ us) := by
  cases h with
  | first after => exact .first (after ++ us)
  | later before ht after =>
      have := Jammed.later before ht (after ++ us)
      simpa using this

theorem Jammed.behind {t : Token} {ts : List Token} (h : Jammed ts) (ht : t.Opens)
    (us : List Token) : Jammed (us ++ t :: ts) := by
  cases h with
  | first after => exact .later us ht after
  | later before ht' after =>
      have := Jammed.later (us ++ t :: before) ht' after
      simpa using this

theorem Jammed.enclose {ts : List Token} (h : Jammed ts) (needed : Bool) :
    Jammed (Token.enclose needed ts) := by
  cases needed with
  | false => exact h
  | true => exact (h.append [.rpar]).behind (.inl rfl) []

end Token

namespace Reading

/-- After a token that opens an operand, an operand is due. -/
theorem last_of_opens {r r' : Reading} {t : Token} {next : Option Token} (ht : t.Opens)
    (h : r.read t next = .ok r') : r'.last ≠ .value := by
  rcases ht with rfl | rfl | ⟨op, rfl⟩
  · obtain ⟨-, rfl⟩ := of_checkOperand_map h
    unfold readOpening
    split <;> simp
  · obtain ⟨-, f, n, pending, listed, -, rfl⟩ := readComma_cases h
    simp
  · rw [read] at h
    split at h
    · cases h
      simp [readBinary]
    · split at h
      · obtain ⟨-, rfl⟩ := readSign_cases h
        simp
      · cases h

/-- A minus sign where an operand is due leaves the state of a sign, unless it is the second. -/
theorem read_sub {r r' : Reading} {next : Option Token} (h : r.last ≠ .value)
    (hr : r.read (.op .sub) next = .ok r') : r.last ≠ .sign ∧ r'.last = .sign := by
  have hsign : BinOp.sub.isSign = true := rfl
  rw [read, if_neg h, if_pos hsign] at hr
  obtain ⟨hlast, rfl⟩ := readSign_cases hr
  exact ⟨hlast, rfl⟩

/-- A second sign in a row is refused. -/
theorem readAll_signs {r r' : Reading} {after : List Token} (h : r.last ≠ .value) :
    r.readAll (.op .sub :: .op .sub :: after) ≠ .ok r' := by
  intro hr
  rw [readAll] at hr
  split at hr
  · rename_i r₁ hr₁
    obtain ⟨-, hsign⟩ := read_sub h hr₁
    rw [readAll] at hr
    split at hr
    · rename_i r₂ hr₂
      exact (read_sub (by rw [hsign]; simp) hr₂).1 hsign
    · cases hr
  · cases hr

theorem readAll_jammed {ts : List Token} (hts : Token.Jammed ts) {r r' : Reading}
    (h : r.last ≠ .value) : r.readAll ts ≠ .ok r' := by
  cases hts with
  | first after => exact readAll_signs h
  | later before ht after =>
      -- whatever is read before it, the token that opens makes an operand due
      clear h
      induction before generalizing r with
      | nil =>
          rw [List.nil_append, readAll]
          split
          · rename_i r₁ hr₁
            exact readAll_signs (last_of_opens ht hr₁)
          · intro he
            cases he
      | cons u before ih =>
          rw [List.cons_append, readAll]
          split
          · exact ih
          · intro he
            cases he

end Reading

theorem Listing.ofTokens_jammed {ts : List Token} (h : Token.Jammed ts) (l : Listing) :
    Listing.ofTokens ts ≠ .ok l := by
  intro hl
  unfold Listing.ofTokens at hl
  obtain ⟨r, hr, -⟩ := exists_of_bind_eq_ok hl
  exact Reading.readAll_jammed h (by simp [Reading.start]) hr

namespace Expr

/-- Among arguments that follow a comma, one that is jammed jams the whole call. -/
theorem jammed_tokensOfAll_comma {args : List Expr} {a : Expr} (ha : a ∈ args)
    (h : Token.Jammed (a.tokensAt 0)) (us : List Token) :
    Token.Jammed (us ++ tokensOfAll [.comma] args) := by
  induction args generalizing us with
  | nil => cases ha
  | cons b args ih =>
      rw [tokensOfAll]
      rcases List.mem_cons.mp ha with rfl | ha
      · have := (h.behind (.inr (.inl rfl)) us).append (tokensOfAll [.comma] args)
        simpa using this
      · have := ih ha (us ++ .comma :: b.tokensAt 0)
        simpa using this

theorem jammed_tokensOfAll {args : List Expr} {a : Expr} (ha : a ∈ args)
    (h : Token.Jammed (a.tokensAt 0)) : Token.Jammed (tokensOfAll [] args) := by
  cases args with
  | nil => cases ha
  | cons b args =>
      rw [tokensOfAll, List.nil_append]
      rcases List.mem_cons.mp ha with rfl | ha
      · exact h.append _
      · exact jammed_tokensOfAll_comma ha h _

theorem tokensAt_of_hidesSign {e : Expr} (h : e.hidesSign = true) (least : Nat)
    (hl : least ≤ Rank.power.tightness) : ∃ ts, e.tokensAt least = .op .sub :: ts := by
  cases e with
  | num v =>
      obtain rfl : v = -0 := of_decide_eq_true h
      exact ⟨_, tokensAt_negZero least (Nat.le_trans hl (by decide))⟩
  | bin op a b =>
      obtain ⟨rfl, rfl⟩ := eq_of_hidesSign_bin h
      have hfree : ¬ (bin .pow (num (-0)) b).tightness < least := Nat.not_lt.mpr hl
      rw [tokensAt, decide_eq_false hfree,
        tokensAt_negZero (leftTightness .pow) (Nat.le_refl _)]
      exact ⟨_, rfl⟩
  | _ => cases h

/-- Signs that meet in a tree meet in its text. -/
theorem jammed_tokensAt {e : Expr} (h : e.SignsMeet) :
    ∀ least, Token.Jammed (e.tokensAt least) := by
  induction h with
  | here h =>
      obtain ⟨c, rfl, h⟩ := h
      intro least
      obtain ⟨ts, hts⟩ := tokensAt_of_hidesSign h signedTightness (Nat.le_refl _)
      rw [tokensAt, hts]
      exact (Token.Jammed.first ts).enclose _
  | neg h ih =>
      intro least
      exact ((ih signedTightness).behind (.inr (.inr ⟨_, rfl⟩)) []).enclose _
  | @left op a b h ih =>
      intro least
      exact ((ih (leftTightness op)).append _).enclose _
  | @right op a b h ih =>
      intro least
      exact ((ih (rightTightness op)).behind (.inr (.inr ⟨op, rfl⟩)) _).enclose _
  | argument ha h ih =>
      intro least
      have hargs := (jammed_tokensOfAll ha (ih 0)).append [.rpar]
      exact (hargs.behind (.inl rfl) [_]).enclose _

end Expr

/-- The text of a tree in which signs meet is not read at all. -/
theorem Parsed.not_ofText_render {e : Expr} (h : e.Readable Token.IsLiteral) (hmeet : e.SignsMeet)
    (p : Parsed) : Parsed.ofText (Text.compact e.render) ≠ .ok p := by
  intro hp
  unfold Parsed.ofText at hp
  obtain ⟨ts, hts, hp⟩ := exists_of_bind_eq_ok hp
  rw [Token.scan_render h] at hts
  cases hts
  obtain ⟨l, hl, -⟩ := exists_of_bind_eq_ok hp
  exact Listing.ofTokens_jammed (Expr.jammed_tokensAt hmeet 0) l hl

end Reckon
