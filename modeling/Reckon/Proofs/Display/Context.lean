import Reckon.Proofs.Display.RoundTrip

/-!
# A place in a displayed tree

A `Context` is a tree with one place in it left open. `plug` puts a tree there, `text` and `tokens`
put a text and its tokens there, and the printer does the one as it does the other: the text of a
plugged tree is the text of the context around the text of what was plugged in (`textAt_plug`),
which is written as tightly as the open place asks for (`least`).

What stands at the open place need not be what the printer would write. Any text that is cut into
tokens makes the whole text one (`cuts_text`), and any phrase of the open place's rank makes the
whole a phrase (`exists_phrase`), parentheses or not.
-/

namespace Reckon

namespace Expr

/-- A tree with one place in it left open. -/
inductive Context
  | hole
  | neg (C : Context)
  | left (op : BinOp) (C : Context) (b : Expr)
  | right (op : BinOp) (a : Expr) (C : Context)
  | argument (f : Builtin) (front : List Expr) (C : Context) (rest : List Expr)

/-- What separates an argument from those in front of it: nothing, if there are none. -/
def gap {α : Type} (nothing comma : α) (front : List Expr) : α :=
  if front.isEmpty then nothing else comma

namespace Context

/-- The tree with another one at the open place. -/
def plug (c : Expr) : Context → Expr
  | hole => c
  | neg C => .neg (C.plug c)
  | left op C b => .bin op (C.plug c) b
  | right op a C => .bin op a (C.plug c)
  | argument f front C rest => .call f (front ++ C.plug c :: rest)

/-- The least tightness at the open place, if so much is asked for around the tree. -/
def least (outer : Nat) : Context → Nat
  | hole => outer
  | neg C => C.least signedTightness
  | left op C _ => C.least (leftTightness op)
  | right op _ C => C.least (rightTightness op)
  | argument _ _ C _ => C.least 0

/-- The rank of the phrases at the open place, if the whole is a phrase of a rank. -/
def rank (outer : Rank) : Context → Rank
  | hole => outer
  | neg C => C.rank .power
  | left op C _ => C.rank op.leftRank
  | right op _ C => C.rank op.rightRank
  | argument _ _ C _ => C.rank .sum

/-- The open place is the exponent of a power. -/
inductive IsExponent : Context → Prop
  | here (a : Expr) : IsExponent (right .pow a hole)
  | neg {C : Context} (h : C.IsExponent) : IsExponent (neg C)
  | left {op : BinOp} {C : Context} {b : Expr} (h : C.IsExponent) : IsExponent (left op C b)
  | right {op : BinOp} {a : Expr} {C : Context} (h : C.IsExponent) : IsExponent (right op a C)
  | argument {f : Builtin} {front rest : List Expr} {C : Context} (h : C.IsExponent) :
      IsExponent (argument f front C rest)

/-- The text of the tree with a text at the open place. -/
def text (outer : Nat) (w : String) : Context → String
  | hole => w
  | neg C => enclose (Operator.neg.tightness < outer) ("-" ++ C.text signedTightness w)
  | left op C b => enclose ((Operator.bin op).tightness < outer)
      (C.text (leftTightness op) w ++ spaced op ++ b.textAt (rightTightness op))
  | right op a C => enclose ((Operator.bin op).tightness < outer)
      (a.textAt (leftTightness op) ++ spaced op ++ C.text (rightTightness op) w)
  | argument f front C rest => enclose (Rank.atom.tightness < outer)
      (f.name ++ "(" ++ (textOfAll "" front ++ gap "" ", " front ++ C.text 0 w
        ++ textOfAll ", " rest) ++ ")")

/-- The tokens of the tree with some tokens at the open place. -/
def tokens (outer : Nat) (ts : List Token) : Context → List Token
  | hole => ts
  | neg C => Token.enclose (Operator.neg.tightness < outer)
      (.op .sub :: C.tokens signedTightness ts)
  | left op C b => Token.enclose ((Operator.bin op).tightness < outer)
      (C.tokens (leftTightness op) ts ++ .op op :: b.tokensAt (rightTightness op))
  | right op a C => Token.enclose ((Operator.bin op).tightness < outer)
      (a.tokensAt (leftTightness op) ++ .op op :: C.tokens (rightTightness op) ts)
  | argument f front C rest => Token.enclose (Rank.atom.tightness < outer)
      (.ident f.name :: .lpar :: (tokensOfAll [] front ++ gap [] [.comma] front ++ C.tokens 0 ts
        ++ tokensOfAll [.comma] rest ++ [.rpar]))

theorem readable_of_plug {C : Context} {c : Expr} {literal : Float → Prop}
    (h : (C.plug c).Readable literal) :
    c.Readable literal := by
  induction C with
  | hole => exact h
  | neg C ih =>
      cases h with
      | neg he => exact ih he
  | left op C b ih =>
      cases h with
      | bin ha hb => exact ih ha
  | right op a C ih =>
      cases h with
      | bin ha hb => exact ih hb
  | argument f front C rest ih =>
      cases h with
      | call accepted hargs => exact ih (hargs _ (by simp))

/-- There is a token at least, if there is one at the open place. -/
theorem tokens_ne_nil (C : Context) (outer : Nat) {ts : List Token} (h : ts ≠ []) :
    C.tokens outer ts ≠ [] := by
  cases C with
  | hole => exact h
  | _ =>
      unfold tokens Token.enclose
      split <;> simp

end Context

/-! ## Parentheses around a tree

All that a place decides is whether there are parentheses around the tree. -/

theorem enclose_false (s : String) : enclose false s = s := rfl

theorem textAt_eq_enclose (e : Expr) (outer : Nat) :
    e.textAt outer = enclose (e.tightness < outer) (e.textAt 0) := by
  cases e <;> rfl

theorem tokensAt_eq_enclose (e : Expr) (outer : Nat) :
    e.tokensAt outer = Token.enclose (e.tightness < outer) (e.tokensAt 0) := by
  cases e <;> rfl

/-! ## A plugged tree is written around what is plugged in -/

theorem textOfAll_append (front : List Expr) (a : Expr) (rest : List Expr) :
    textOfAll "" (front ++ a :: rest) = textOfAll "" front
      ++ gap "" ", " front ++ a.textAt 0 ++ textOfAll ", " rest := by
  have hcomma : ∀ front, textOfAll ", " (front ++ a :: rest)
      = textOfAll ", " front ++ ", " ++ a.textAt 0 ++ textOfAll ", " rest := by
    intro front
    induction front with
    | nil => simp [textOfAll]
    | cons b front ih => simp [textOfAll, ih, String.append_assoc]
  cases front with
  | nil => simp [textOfAll, gap]
  | cons b front =>
      rw [List.cons_append, textOfAll, textOfAll, hcomma]
      simp [gap, String.append_assoc]

theorem tokensOfAll_append (front : List Expr) (a : Expr) (rest : List Expr) :
    tokensOfAll [] (front ++ a :: rest) = tokensOfAll [] front ++ gap [] [.comma] front
      ++ a.tokensAt 0 ++ tokensOfAll [.comma] rest := by
  have hcomma : ∀ front, tokensOfAll [.comma] (front ++ a :: rest)
      = tokensOfAll [.comma] front ++ [.comma] ++ a.tokensAt 0 ++ tokensOfAll [.comma] rest := by
    intro front
    induction front with
    | nil => simp [tokensOfAll]
    | cons b front ih => simp [tokensOfAll, ih]
  cases front with
  | nil => simp [tokensOfAll, gap]
  | cons b front => simp [tokensOfAll, hcomma, gap]

theorem textAt_plug (C : Context) (c : Expr) (outer : Nat) :
    (C.plug c).textAt outer = C.text outer (c.textAt (C.least outer)) := by
  induction C generalizing outer with
  | hole => rfl
  | neg C ih =>
      rw [Context.plug, textAt, ih]
      rfl
  | left op C b ih =>
      rw [Context.plug, textAt, ih]
      rfl
  | right op a C ih =>
      rw [Context.plug, textAt, ih]
      rfl
  | argument f front C rest ih =>
      rw [Context.plug, textAt, textOfAll_append, ih]
      rfl

theorem tokensAt_plug (C : Context) (c : Expr) (outer : Nat) :
    (C.plug c).tokensAt outer = C.tokens outer (c.tokensAt (C.least outer)) := by
  induction C generalizing outer with
  | hole => rfl
  | neg C ih =>
      rw [Context.plug, tokensAt, ih]
      rfl
  | left op C b ih =>
      rw [Context.plug, tokensAt, ih]
      rfl
  | right op a C ih =>
      rw [Context.plug, tokensAt, ih]
      rfl
  | argument f front C rest ih =>
      rw [Context.plug, tokensAt, tokensOfAll_append, ih]
      rfl

/-! ## Texts and phrases at the open place -/

/-- A text as the last of some arguments, the first if there are no others. -/
theorem cuts_last_argument {front : List Expr} (h : ∀ a ∈ front, a.Readable Token.IsLiteral)
    {w : String} {ts : List Token} (hw : Token.Cuts w ts) :
    Token.Cuts (textOfAll "" front ++ gap "" ", " front ++ w)
      (tokensOfAll [] front ++ gap [] [.comma] front ++ ts) := by
  cases front with
  | nil => simpa [textOfAll, tokensOfAll, gap] using hw
  | cons a front =>
      have hall := Token.cuts_textOfAll fun b hb => Token.cuts_textAt (h b hb) 0
      have hjoined := hall.join (m := ", ") (t := .comma) rfl rfl hw
      simpa [gap] using hjoined

/-- If the text at the open place is cut into some tokens, so is the whole text. -/
theorem cuts_text {C : Context} {c : Expr} (h : (C.plug c).Readable Token.IsLiteral) {w : String}
    {ts : List Token} (hw : Token.Cuts w ts) (outer : Nat) :
    Token.Cuts (C.text outer w) (C.tokens outer ts) := by
  induction C generalizing outer with
  | hole => exact hw
  | neg C ih =>
      cases h with
      | neg he => exact ((ih he signedTightness).behind (m := "-") rfl rfl).enclose _
  | left op C b ih =>
      cases h with
      | bin ha hb =>
          obtain ⟨s, hs, ht⟩ := Token.cuts_symbol_spaced op
          exact ((ih ha (leftTightness op)).join hs ht (Token.cuts_textAt hb _)).enclose _
  | right op a C ih =>
      cases h with
      | bin ha hb =>
          obtain ⟨s, hs, ht⟩ := Token.cuts_symbol_spaced op
          exact ((Token.cuts_textAt ha _).join hs ht (ih hb (rightTightness op))).enclose _
  | argument f front C rest ih =>
      cases h with
      | call accepted hargs =>
          have hfront := cuts_last_argument (fun a ha => hargs a (List.mem_append_left _ ha))
            (ih (hargs _ (by simp)) 0)
          have hall := Token.cuts_textOfAll_comma (fun a ha =>
            Token.cuts_textAt (hargs a (List.mem_append_right _ (.tail _ ha))) 0) hfront
          have hclosed := hall.join (m := ")") (t := .rpar) rfl rfl Token.cuts_nil
          have hcall := (Token.cuts_name (Token.isName_name f)).join (m := "(") (t := .lpar)
            rfl rfl hclosed
          have := hcall.enclose (Rank.atom.tightness < outer)
          rw [Context.text, Context.tokens]
          simpa [String.append_assoc] using this

/-- A tree of finite literals without zeros that have a sign is displayed as a phrase for what it is
read as, at any place that takes phrases as loose as it asks for. -/
theorem exists_displayed {e : Expr} (h : e.Readable IsPlain) (outer : Nat) {k : Rank}
    (hk : k = .sum ∨ k.tightness ≤ outer) :
    ∃ q : Phrase k, q.tokens = e.tokensAt outer ∧ q.tree = e.withSigns := by
  have hdisplayed := displayed (h.mono fun v hv => .inl hv.1) (not_signsMeet_of_plain h)
  have hsuits : e.Suits outer k := ⟨hk, fun hh => by
    rw [hidesSign_of_plain h] at hh
    cases hh⟩
  rw [← reread_of_plain h]
  exact hdisplayed outer k hsuits

/-- A phrase with the parentheses that a place asks for is one of the place's rank. -/
theorem exists_placed {k m : Rank} {outer : Nat} (hk : k = .sum ∨ k.tightness ≤ outer)
    (q : Phrase m) : ∃ q' : Phrase k,
      q'.tokens = Token.enclose (m.tightness < outer) q.tokens ∧ q'.tree = q.tree := by
  refine exists_enclosed q _ fun hneeded => ?_
  have hle : outer ≤ m.tightness := Nat.not_lt.mp (of_decide_eq_false hneeded)
  rcases hk with rfl | hk
  · cases m <;> decide
  · exact Nat.le_trans hk hle

/-- The operands of an operator stand at places for phrases of the ranks that it takes. -/
theorem leftRank_le (op : BinOp) : op.leftRank.tightness ≤ leftTightness op := by
  cases op <;> decide

theorem rightRank_le (op : BinOp) : op.rightRank.tightness ≤ rightTightness op := by
  cases op <;> decide

/-- Two phrases with an operator between them, and the parentheses that a place asks for. -/
theorem exists_placed_bin {op : BinOp} {k : Rank} {outer : Nat}
    (hk : k = .sum ∨ k.tightness ≤ outer) (p : Phrase op.leftRank) (r : Phrase op.rightRank) :
    ∃ q : Phrase k, q.tokens = Token.enclose ((Operator.bin op).tightness < outer)
        (p.tokens ++ .op op :: r.tokens) ∧ q.tree = .bin op p.tree r.tree := by
  obtain ⟨q, hq, hq'⟩ := exists_placed hk (.bin op p r)
  exact ⟨q, by rw [hq, Phrase.tokens_bin, BinOp.tightness_rank], by rw [hq', Phrase.tree_bin]⟩

/-- More arguments after some. -/
theorem exists_more_displayed {args : List Expr} (h : ∀ a ∈ args, a.Readable IsPlain) {n : Nat}
    (some : Arguments n) :
    ∃ (m : Nat) (all : Arguments m), all.tokens = some.tokens ++ tokensOfAll [.comma] args
      ∧ all.trees = some.trees ++ args.map withSigns := by
  obtain ⟨m, -, all, htokens, htrees⟩ := exists_more_arguments (fun a ha =>
    displayed ((h a ha).mono fun v hv => .inl hv.1) (not_signsMeet_of_plain (h a ha))) some
  refine ⟨m, all, htokens, ?_⟩
  rw [htrees, List.map_congr_left fun a ha => reread_of_plain (h a ha)]

/-- A phrase as the last of some arguments, the first if there are no others. -/
theorem exists_last_argument {front : List Expr} (h : ∀ a ∈ front, a.Readable IsPlain)
    (s : Phrase .sum) :
    ∃ (m : Nat) (some : Arguments m),
      some.tokens = tokensOfAll [] front ++ gap [] [.comma] front ++ s.tokens
      ∧ some.trees = front.map withSigns ++ [s.tree] := by
  cases front with
  | nil => exact ⟨1, .one s, by simp [Arguments.tokens, tokensOfAll, gap], rfl⟩
  | cons a front =>
      obtain ⟨t, ht, ht'⟩ := exists_displayed (h a (.head _)) 0 (k := .sum) (.inl rfl)
      obtain ⟨m, all, hall, hall'⟩ :=
        exists_more_displayed (fun b hb => h b (.tail _ hb)) (.one t)
      refine ⟨m + 1, .more all s, ?_, ?_⟩
      · simp [Arguments.tokens, hall, ht, tokensOfAll, gap]
      · simp [Arguments.trees, hall', ht']

/-- Any phrase at the open place makes the whole a phrase. -/
theorem exists_phrase {C : Context} {c : Expr} (h : (C.plug c).Readable IsPlain) (outer : Nat)
    {k : Rank} (hk : k = .sum ∨ k.tightness ≤ outer) (q : Phrase (C.rank k))
    (hq : q.tree = c.withSigns) :
    ∃ q' : Phrase k, q'.tokens = C.tokens outer q.tokens ∧ q'.tree = (C.plug c).withSigns := by
  -- everything around the open place is written as the printer writes it, so at each step outwards
  -- only parentheses are left to be put
  induction C generalizing outer k with
  | hole => exact ⟨q, rfl, hq⟩
  | neg C ih =>
      cases h with
      | neg he =>
          have hpower : Rank.power.tightness ≤ signedTightness := Nat.le_refl _
          obtain ⟨p, hp, hp'⟩ := ih he signedTightness (.inr hpower) q hq
          obtain ⟨q', hq', hq''⟩ := exists_placed hk (.minus p)
          exact ⟨q', by rw [hq', Phrase.tokens, hp]; rfl, by rw [hq'', Phrase.tree, hp']; rfl⟩
  | left op C b ih =>
      cases h with
      | bin ha hb =>
          obtain ⟨p, hp, hp'⟩ := ih ha (leftTightness op) (.inr (leftRank_le op)) q hq
          obtain ⟨r, hr, hr'⟩ := exists_displayed hb (rightTightness op)
            (.inr (rightRank_le op))
          obtain ⟨q', hq', hq''⟩ := exists_placed_bin hk p r
          exact ⟨q', by rw [hq', hp, hr]; rfl, by rw [hq'', hp', hr']; rfl⟩
  | right op a C ih =>
      cases h with
      | bin ha hb =>
          obtain ⟨p, hp, hp'⟩ := exists_displayed ha (leftTightness op)
            (.inr (leftRank_le op))
          obtain ⟨r, hr, hr'⟩ := ih hb (rightTightness op) (.inr (rightRank_le op)) q hq
          obtain ⟨q', hq', hq''⟩ := exists_placed_bin hk p r
          exact ⟨q', by rw [hq', hp, hr]; rfl, by rw [hq'', hp', hr']; rfl⟩
  | argument f front C rest ih =>
      cases h with
      | call accepted hargs =>
          have hfront : ∀ a ∈ front, a.Readable IsPlain := fun a ha =>
            hargs a (List.mem_append_left _ ha)
          have hrest : ∀ a ∈ rest, a.Readable IsPlain := fun a ha =>
            hargs a (List.mem_append_right _ (.tail _ ha))
          obtain ⟨s, hs, hs'⟩ := ih (hargs _ (by simp)) 0 (.inl rfl) q hq
          obtain ⟨n, some, hsome, hsome'⟩ := exists_last_argument hfront s
          obtain ⟨m, all, hall, hall'⟩ := exists_more_displayed hrest some
          have htrees : all.trees = (front ++ C.plug c :: rest).map withSigns := by
            rw [hall', hsome', hs', List.map_append, List.map_cons, List.append_assoc]
            rfl
          have haccepted : f.arity.accepts m = true := by
            rw [← all.length_trees, htrees, List.length_map]
            exact accepted
          obtain ⟨q', hq', hq''⟩ := exists_placed hk (.call f all haccepted)
          refine ⟨q', ?_, ?_⟩
          · rw [hq', Phrase.tokens, hall, hsome, hs]
            rfl
          · rw [hq'', Phrase.tree, htrees, Context.plug, withSigns, withSignsAll_eq_map]

end Expr

end Reckon
