import Reckon.Proofs.Display.RoundTrip
import Reckon.Proofs.Token.Adjacent

/-!
# The displayed tokens are a source text

An analysis displays the tokens that it has read, with a space between any two. Evaluated again,
that line loses its spaces before it is read, and still it is cut into the same tokens: each token
is displayed in a spelling of its own (`spells_text`), and the tokens of an expression are spaced,
so their spellings need nothing between them.

A number that is too large for double precision is the one exception. It has become infinity, which
is displayed as a word, and the word is a name (`reread`).
-/

namespace Reckon

namespace Token

/-- What the text of a token is read as. -/
def reread : Token → Token
  | num v => if v.isFinite then num v else ident (Number.text v)
  | t => t

theorem isOperand_reread (t : Token) : t.reread.isOperand = t.isOperand := by
  cases t with
  | num v =>
      rw [reread]
      split <;> rfl
  | _ => rfl

/-- Only a number that is not finite is read as something else. -/
theorem reread_eq_self_iff {t : Token} :
    t.reread = t ↔ ∀ v, t = num v → v.isFinite = true := by
  cases t with
  | num v =>
      rw [reread]
      constructor
      · intro h w hw
        cases hw
        split at h
        · assumption
        · cases h
      · intro h
        rw [if_pos (h v rfl)]
  | _ =>
      refine ⟨fun _ v hv => ?_, fun _ => rfl⟩
      cases hv

/-! ## Every token is displayed in a spelling -/

theorem spells_name {x : String} (h : IsName x) : Spells x.toList (ident x) := by
  rcases h with rfl | ⟨c, cs, rfl, hc, hcs⟩
  · exact .symbol (by decide)
  · rw [String.toList_ofList]
    exact .name hc hcs

theorem numeral_chars (d : Number.Decimal) :
    Numeral d.chars (.ofDigits d.spelled.1 d.spelled.2) := by
  have hwhole : ∀ c ∈ d.spelled.1, c.isDigit = true := fun c hc =>
    Number.Decimal.isDigit_of_mem_spelled (List.mem_append_left _ hc)
  have hpart : ∀ c ∈ d.spelled.2, c.isDigit = true := fun c hc =>
    Number.Decimal.isDigit_of_mem_spelled (List.mem_append_right _ hc)
  unfold Number.Decimal.chars
  dsimp only
  split
  · rename_i hnone
    rw [List.isEmpty_iff.mp hnone]
    exact .whole d.spelled_fst_ne_nil hwhole
  · exact .point (.inl d.spelled_fst_ne_nil) hwhole hpart

/-- The shortest decimal of a number is a numeral for it. -/
theorem spells_number {v : Float} (hfin : v.isFinite = true) (hsign : Number.isSigned v = false) :
    Spells (Number.text v).toList (num v) := by
  have hrounds := Number.ofDecimal_shortest_spelled hfin
  rw [Number.abs_of_not_isSigned hfin hsign] at hrounds
  rw [Number.text_of_isFinite hfin, hsign, if_neg (by decide), String.toList_ofList]
  exact .number (numeral_chars _) (Number.roundsTo_iff.mpr hrounds.symm)

/-- **A token is displayed in a spelling of what it is read as.** -/
theorem spells_text {t : Token} (h : t.Lexed IsNumeral) : Spells t.text.toList t.reread := by
  cases t with
  | num v =>
      obtain ⟨d, hd⟩ := h
      rw [reread]
      split
      · rename_i hfin
        exact spells_number hfin (hd ▸ Number.isSigned_ofDecimal d)
      · -- infinity is the only number of the lexer that is not finite
        rename_i hfin
        have hinf : v = Number.infinite :=
          (hd ▸ Number.isFinite_ofDecimal d : IsLiteral v).resolve_left hfin
        have hname : IsName (Number.text v) := by
          rw [hinf, Number.text_infinite]
          exact isName_of_chars rfl
        exact spells_name hname
  | ident x => exact spells_name h
  | op op => cases op <;> exact .symbol (by decide)
  | lpar => exact .symbol (by decide)
  | rpar => exact .symbol (by decide)
  | comma => exact .symbol (by decide)

/-! ## The whole line -/

/-- The spaces of a line are all that `compact` takes away from it. -/
theorem toList_compact_line {ts : List Token} (h : ∀ t ∈ ts, t.Lexed IsNumeral) :
    (Text.compact (line ts)).toList = (ts.map fun t => t.text.toList).flatten := by
  have htext : ∀ t ∈ ts, t.text.toList.filter (fun c => !Text.isBlank c) = t.text.toList := by
    intro t ht
    rw [List.filter_eq_self]
    intro c hc
    rw [(spells_text (h t ht)).isBlank c hc, Bool.not_false]
  rw [Text.toList_compact, line]
  induction ts with
  | nil => rfl
  | cons t ts ih =>
      have ih := ih (fun u hu => h u (.tail _ hu)) (fun u hu => htext u (.tail _ hu))
      have ht := htext t (.head _)
      cases ts with
      | nil => simpa using ht
      | cons u us =>
          have hspace : [' '].filter (fun c => !Text.isBlank c) = [] := by decide
          rw [List.map_cons, List.map_cons, String.intercalate_cons_cons, ← List.map_cons,
            String.toList_append, String.toList_append, List.filter_append, List.filter_append, ih,
            ht]
          change t.text.toList ++ [' '].filter _ ++ _ = _
          rw [hspace, List.append_nil]
          rfl

/-- A line of tokens is read as what each of them is read as. -/
theorem scan_line {ts : List Token} (h : ∀ t ∈ ts, t.Lexed IsNumeral) (hs : Spaced ts) :
    scan (Text.compact (line ts)) = .ok (ts.map reread) := by
  have hspells : List.Forall₂ Spells (ts.map fun t => t.text.toList) (ts.map reread) := by
    rw [List.forall₂_map_left_iff, List.forall₂_map_right_iff, List.forall₂_same]
    exact fun t ht => spells_text (h t ht)
  have hspaced : Spaced (ts.map reread) := by
    rw [Spaced, List.isChain_map]
    simpa only [isOperand_reread, Spaced] using hs
  obtain ⟨ls, hcut, htokens⟩ := cutInto_flatten hspells hspaced
  rw [← toList_compact_line h] at hcut
  rw [← htokens]
  exact scan_cut hcut

end Token

/-- **The line of tokens that an analysis displays is a source text of it.** The line is analysed as
the text was, in every stage, unless a number of the text was too large. -/
theorem analyse_line_tokens (text : String) (scope : Scope) (a : Analysis)
    (h : analyse text scope = .ok a) :
    analyse (Token.line a.tokens) scope = .ok a
      ↔ ∀ v, .num v ∈ a.tokens → v.isFinite = true := by
  have hst := analyse_stages h
  obtain ⟨hscan, q, hq, htree, hlisting⟩ := Parsed.stages hst.read
  dsimp only at hscan hq htree hlisting
  have hlexed : ∀ t ∈ a.tokens, t.Lexed Token.IsNumeral :=
    Token.lexed_of_scanFrom (by simp) hscan
  have hline := Token.scan_line hlexed (hq ▸ q.spaced)
  constructor
  · intro hagain v hv
    -- the line has been read as the tokens themselves
    have hsame := (Parsed.stages (analyse_stages hagain).read).1
    have hmap : a.tokens.map Token.reread = a.tokens.map id := by
      rw [List.map_id]
      exact Except.ok.inj (hline.symm.trans hsame)
    exact Token.reread_eq_self_iff.mp (List.map_inj_left.mp hmap _ hv) v rfl
  · intro hfin
    have hself : ∀ t ∈ a.tokens, t.reread = t := by
      intro t ht
      exact Token.reread_eq_self_iff.mpr fun v hv => hfin v (hv ▸ ht)
    rw [List.map_congr_left hself, List.map_id', ← hq] at hline
    have hread := Parsed.ofText_eq hline
    rw [hq, ← htree, ← hlisting] at hread
    exact Analysis.Stages.analyse_eq ⟨admitText_of_read (admitText_checkFinite hst.admitted) hread,
      hread, hst.bound, hst.value⟩

/-- Blanks inside a number and a name, signs for a name and a function, and digits to spare. -/
theorem analyse_line_tokens_tight :
    ∃ a, analyse "2 .50*√(x)-m ax(π,.50)" (.ofList [("x", 4)]) = .ok a
      ∧ Token.line a.tokens = "2.5 * sqrt ( x ) - max ( π , 0.5 )"
      ∧ (∀ v, .num v ∈ a.tokens → v.isFinite = true)
      ∧ analyse (Token.line a.tokens) (.ofList [("x", 4)]) = .ok a := by
  obtain ⟨a, ha, hall⟩ := exists_ok_of_any
    (x := analyse "2 .50*√(x)-m ax(π,.50)" (.ofList [("x", 4)]))
    (p := fun a => decide (Token.line a.tokens = "2.5 * sqrt ( x ) - max ( π , 0.5 )")
      && a.tokens.all fun
        | .num v => v.isFinite
        | _ => true) (by decide +kernel)
  obtain ⟨hline, hall⟩ := Bool.and_eq_true_iff.mp hall
  have hfin : ∀ v, .num v ∈ a.tokens → v.isFinite = true := fun v hv =>
    List.all_eq_true.mp hall (.num v) hv
  exact ⟨a, ha, of_decide_eq_true hline, hfin, (analyse_line_tokens _ _ a ha).mpr hfin⟩

end Reckon
