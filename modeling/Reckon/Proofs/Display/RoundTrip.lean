import Reckon.Proofs.Display.Reread

/-!
# Display is an inverse of the reader

For a tree whose literals are finite and none of them a zero with a sign, all that reading it back
changes is the negative literals, each of which becomes the opposite of its magnitude
(`withSigns`). A tree that was read has no such literal, because the lexer makes numbers of digits
alone; so it is read back as itself.
-/

namespace Reckon

namespace Expr

mutual

/-- A tree with every negative literal written as the opposite of its magnitude. -/
def withSigns : Expr → Expr
  | num v => if v < 0 then neg (num v.abs) else num v
  | var x => var x
  | neg e => neg e.withSigns
  | bin op a b => bin op a.withSigns b.withSigns
  | call f args => call f (withSignsAll args)

/-- As `withSigns`, on each of some trees. -/
def withSignsAll : List Expr → List Expr
  | [] => []
  | a :: args => a.withSigns :: withSignsAll args

end

theorem withSignsAll_eq_map (args : List Expr) : withSignsAll args = args.map withSigns := by
  induction args with
  | nil => rfl
  | cons a args ih => rw [withSignsAll, ih, List.map_cons]

/-! ## Without zeros that have a sign -/

/-- A finite number other than the zero with a sign. -/
def IsPlain (v : Float) : Prop := v.isFinite = true ∧ v ≠ -0

theorem hidesSign_of_plain {e : Expr} (h : e.Readable IsPlain) : e.hidesSign = false := by
  cases h with
  | num hv => exact decide_eq_false hv.2
  | bin ha hb =>
      rw [← Bool.not_eq_true]
      intro hh
      obtain ⟨-, rfl⟩ := eq_of_hidesSign_bin hh
      cases ha with
      | num hv => exact hv.2 rfl
  | _ => rfl

theorem not_signsMeet_of_plain {e : Expr} (h : e.Readable IsPlain) : ¬ e.SignsMeet := by
  intro hmeet
  induction hmeet with
  | here hh =>
      obtain ⟨c, rfl, hc⟩ := hh
      cases h with
      | neg he =>
          rw [hidesSign_of_plain he] at hc
          cases hc
  | neg _ ih =>
      cases h with
      | neg he => exact ih he
  | left _ ih =>
      cases h with
      | bin ha hb => exact ih ha
  | right _ ih =>
      cases h with
      | bin ha hb => exact ih hb
  | argument ha _ ih =>
      cases h with
      | call accepted hargs => exact ih (hargs _ ha)

theorem reread_of_plain {e : Expr} (h : e.Readable IsPlain) : e.reread = e.withSigns := by
  induction h with
  | @num v hv =>
      obtain ⟨hfin, hne⟩ := hv
      -- away from zero the sign bit and the comparison with zero agree
      rw [reread, withSigns, if_pos hfin]
      by_cases hs : Number.isSigned v = true
      · rw [if_pos hs, if_pos ((Number.lt_zero_iff hfin).2 ⟨hs, hne⟩)]
      · have hlt : ¬ v < 0 := fun hv => hs ((Number.lt_zero_iff hfin).1 hv).1
        rw [if_neg hs, if_neg hlt, Number.abs_of_not_isSigned hfin ((Bool.not_eq_true _).mp hs)]
  | var spelled free => rw [reread, withSigns]
  | neg he ih => rw [reread, withSigns, ih]
  | bin ha hb iha ihb =>
      rw [reread, withSigns, hidesSign_of_plain (.bin ha hb), iha, ihb]
      rfl
  | call accepted hargs ih =>
      rw [reread, withSigns, rereadAll_eq_map, withSignsAll_eq_map, List.map_congr_left ih]

/-! ## Without any signs -/

/-- A literal that has no sign stays as it is. -/
theorem withSigns_of_unsigned {e : Expr}
    (h : e.Readable fun v => v.isFinite = true ∧ Number.isSigned v = false) :
    e.withSigns = e := by
  induction h with
  | @num v hv =>
      have hlt : ¬ v < 0 := fun hlt => by
        rw [((Number.lt_zero_iff hv.1).1 hlt).1] at hv
        cases hv.2
      rw [withSigns, if_neg hlt]
  | var spelled free => rw [withSigns]
  | neg he ih => rw [withSigns, ih]
  | bin ha hb iha ihb => rw [withSigns, iha, ihb]
  | @call f args accepted hargs ih =>
      rw [withSigns, withSignsAll_eq_map, List.map_congr_left ih, List.map_id']

end Expr

/-! ## What the lexer makes -/

namespace Token

/-- A token as the lexer makes it, its numbers as asked for. -/
def Lexed (literal : Float → Prop) : Token → Prop
  | num v => literal v
  | ident x => IsName x
  | _ => True

/-- A number that the lexer makes: the nearest to some decimal. -/
def IsNumeral (v : Float) : Prop := ∃ d, v = Number.ofDecimal false d

theorem lexed_of_symbol {c : Char} {t : Token} (h : ofSymbol? c = some t) : t.Lexed IsNumeral := by
  unfold ofSymbol? at h
  split at h
  all_goals cases h
  all_goals first | exact trivial | exact .inl rfl | exact isName_of_chars rfl

theorem lexed_of_number {before : Option Char} {cs : List Char} {l : Lexeme}
    (h : number before cs = .ok l) : l.token.Lexed IsNumeral := by
  unfold number at h
  dsimp only at h
  split at h
  · split at h <;> cases h
  · split at h
    · cases h
    · cases h
      exact ⟨_, rfl⟩

theorem lexed_of_lexeme {before : Option Char} {c : Char} {cs : List Char} {l : Lexeme}
    (h : lexeme before c cs = .ok l) : l.token.Lexed IsNumeral := by
  unfold lexeme at h
  split at h
  · cases h
    exact lexed_of_symbol ‹_›
  · split at h
    · rename_i hc
      cases h
      exact .inr ⟨c, _, rfl, hc, fun d hd => List.all_eq_true.mp List.all_takeWhile d hd⟩
    · split at h
      · exact lexed_of_number h
      · cases h

theorem lexed_of_scanFrom {before : Option Char} {found ts : List Token} {cs : List Char}
    (hfound : ∀ t ∈ found, t.Lexed IsNumeral) (h : scanFrom before found cs = .ok ts) :
    ∀ t ∈ ts, t.Lexed IsNumeral := by
  fun_induction scanFrom before found cs with
  | case1 before found =>
      cases h
      intro t ht
      exact hfound t (List.mem_reverse.mp ht)
  | case2 before found c cs hc ih => exact ih hfound h
  | case3 => cases h
  | case4 before found c cs hc l hl ih =>
      refine ih (fun t ht => ?_) h
      rcases List.mem_cons.mp ht with rfl | ht
      · exact lexed_of_lexeme hl
      · exact hfound t ht

end Token

/-! ## What the reader makes -/

mutual

/-- The expression of a phrase could have been read, because it was. -/
theorem Phrase.readable {literal : Float → Prop} : ∀ {k : Rank} (q : Phrase k),
    (∀ t ∈ q.tokens, t.Lexed literal) → q.tree.Readable literal
  | _, .num v, h => .num (h (.num v) (by simp [Phrase.tokens]))
  | _, .name x free, h => .var (h (.ident x) (by simp [Phrase.tokens])) free
  | _, .group s, h => s.readable fun t ht => h t (by simp [Phrase.tokens, ht])
  | _, .call f args accepted, h =>
      .call (by rw [args.length_trees]; exact accepted)
        (args.readable fun t ht => h t (by simp [Phrase.tokens, ht]))
  | _, .ofAtom a, h => a.readable fun t ht => h t (by simpa [Phrase.tokens] using ht)
  | _, .pow a b, h =>
      .bin (a.readable fun t ht => h t (by simp [Phrase.tokens, ht]))
        (b.readable fun t ht => h t (by simp [Phrase.tokens, ht]))
  | _, .ofPower p, h => p.readable fun t ht => h t (by simpa [Phrase.tokens] using ht)
  | _, .plus p, h => p.readable fun t ht => h t (by simp [Phrase.tokens, ht])
  | _, .minus p, h => .neg (p.readable fun t ht => h t (by simp [Phrase.tokens, ht]))
  | _, .ofSigned s, h => s.readable fun t ht => h t (by simpa [Phrase.tokens] using ht)
  | _, .mul op _ p s, h =>
      .bin (p.readable fun t ht => h t (by simp [Phrase.tokens, ht]))
        (s.readable fun t ht => h t (by simp [Phrase.tokens, ht]))
  | _, .ofProduct p, h => p.readable fun t ht => h t (by simpa [Phrase.tokens] using ht)
  | _, .add op _ s p, h =>
      .bin (s.readable fun t ht => h t (by simp [Phrase.tokens, ht]))
        (p.readable fun t ht => h t (by simp [Phrase.tokens, ht]))

theorem Arguments.readable {literal : Float → Prop} : ∀ {n : Nat} (args : Arguments n),
    (∀ t ∈ args.tokens, t.Lexed literal) → ∀ e ∈ args.trees, e.Readable literal
  | _, .one s, h, e, he => by
      obtain rfl := List.mem_singleton.mp he
      exact s.readable fun t ht => h t (by simpa [Arguments.tokens] using ht)
  | _, .more args s, h, e, he => by
      rcases List.mem_append.mp he with he | he
      · exact args.readable (fun t ht => h t (by simp [Arguments.tokens, ht])) e he
      · obtain rfl := List.mem_singleton.mp he
        exact s.readable fun t ht => h t (by simp [Arguments.tokens, ht])

end

/-- The tree of a text is readable; its literals are numerals, and whatever else is known of the
numbers among its tokens. -/
theorem Parsed.readable {s : String} {p : Parsed} {literal : Float → Prop}
    (h : Parsed.ofText s = .ok p) (hnum : ∀ v, .num v ∈ p.tokens → Token.IsNumeral v → literal v) :
    p.tree.Readable literal := by
  obtain ⟨hscan, q, hq, htree, -⟩ := Parsed.stages h
  rw [htree]
  refine q.readable fun t ht => ?_
  rw [hq] at ht
  have hlexed := Token.lexed_of_scanFrom (by simp) hscan t ht
  cases t with
  | num v => exact hnum v ht hlexed
  | ident x => exact hlexed
  | _ => trivial

/-- **Display is an inverse of the reader.** A tree of finite literals, none of them a zero with a
sign, is read back from its text with its negative literals as opposites; and a tree that was read
from a text with finite numbers is read back as it is. -/
theorem Parsed.ofText_render_withSigns :
    (∀ e : Expr, e.Readable (fun v => v.isFinite = true ∧ v ≠ -0) →
      (Parsed.ofText (Text.compact e.render)).map (·.tree) = .ok e.withSigns)
    ∧ ∀ s p, Parsed.ofText s = .ok p → (∀ v, .num v ∈ p.tokens → v.isFinite = true) →
      (Parsed.ofText (Text.compact p.tree.render)).map (·.tree) = .ok p.tree := by
  have hdisplay : ∀ e : Expr, e.Readable Expr.IsPlain →
      (Parsed.ofText (Text.compact e.render)).map (·.tree) = .ok e.withSigns := by
    intro e he
    have hliteral : e.Readable Token.IsLiteral := he.mono fun v hv => .inl hv.1
    rw [Parsed.ofText_render hliteral (Expr.not_signsMeet_of_plain he), Except.map,
      Expr.reread_of_plain he]
  refine ⟨hdisplay, fun s p hp hfin => ?_⟩
  -- the lexer makes no number with a sign, so there is nothing to take out
  have hunsigned : p.tree.Readable fun v => v.isFinite = true ∧ Number.isSigned v = false := by
    refine Parsed.readable hp fun v hv hnumeral => ⟨hfin v hv, ?_⟩
    obtain ⟨d, rfl⟩ := hnumeral
    exact Number.isSigned_ofDecimal d
  have hplain : p.tree.Readable Expr.IsPlain := hunsigned.mono fun v hv => ⟨hv.1, by
    rintro rfl
    exact absurd hv.2 (by decide +kernel)⟩
  rw [hdisplay p.tree hplain, Expr.withSigns_of_unsigned hunsigned]

/-- A negative base and a negative argument, and an exponent with a sign of its own. -/
theorem Parsed.ofText_render_negative_base :
    (Expr.bin .sub (.num 1) (.bin .pow (.num (-2))
        (.neg (.call .max [.var "π", .num (-3)])))).Readable (fun v => v.isFinite = true ∧ v ≠ -0)
    ∧ (Parsed.ofText (Text.compact (Expr.render (.bin .sub (.num 1) (.bin .pow (.num (-2))
        (.neg (.call .max [.var "π", .num (-3)]))))))).map (·.tree)
      = .ok (.bin .sub (.num 1) (.bin .pow (.neg (.num 2))
        (.neg (.call .max [.var "π", .neg (.num 3)]))))
    ∧ ∃ p, Parsed.ofText "2^-x*3" = .ok p ∧ (∀ v, .num v ∈ p.tokens → v.isFinite = true)
      ∧ (Parsed.ofText (Text.compact p.tree.render)).map (·.tree) = .ok p.tree := by
  have hread : (Expr.bin .sub (.num 1) (.bin .pow (.num (-2))
      (.neg (.call .max [.var "π", .num (-3)])))).Readable
        (fun v => v.isFinite = true ∧ v ≠ -0) := by
    refine .bin (.num (by decide +kernel)) (.bin (.num (by decide +kernel)) (.neg
      (.call (by decide) ?_)))
    intro a ha
    simp only [List.mem_cons, List.not_mem_nil, or_false] at ha
    rcases ha with rfl | rfl
    · exact .var (.inl rfl) (by decide)
    · exact .num (by decide +kernel)
  refine ⟨hread, ?_, ?_⟩
  · rw [Parsed.ofText_render_withSigns.1 _ hread]
    exact congrArg Except.ok (by decide +kernel)
  · obtain ⟨p, hp, hall⟩ := exists_ok_of_any (x := Parsed.ofText "2^-x*3")
      (p := fun p => p.tokens.all fun
        | .num v => v.isFinite
        | _ => true) (by decide +kernel)
    have hfin : ∀ v, .num v ∈ p.tokens → v.isFinite = true := fun v hv =>
      List.all_eq_true.mp hall (.num v) hv
    exact ⟨p, hp, hfin, Parsed.ofText_render_withSigns.2 _ p hp hfin⟩

end Reckon
