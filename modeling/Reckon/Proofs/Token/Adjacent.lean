import Mathlib.Data.List.Chain
import Mathlib.Data.List.Forall2
import Reckon.Proofs.Stages
import Reckon.Proofs.Token.Cut

/-!
# Texts side by side

Set one behind the other, two texts are cut into the lexemes of the first and then those of the
second, provided that no lexeme reaches over the border between them. What reaches over a border is
easy to say, because two characters side by side in one lexeme both belong to a name or both to a
number (`Joins`): so it is enough to look at the two characters at the border (`Parted`).

Two things follow. A text that has been cut keeps its tokens in front of whatever cannot run on from
it (`cuts_of_scan`). And spellings of tokens may be set side by side without any blanks if no two of
the tokens are operands (`cutInto_flatten`). The tokens of an expression are always so, since an
operator, a comma or a parenthesis stands between any two operands of it (`Phrase.spaced`).
-/

namespace Reckon

namespace Token

/-- Two characters that can stand side by side in one lexeme: they are both of a name, or both of a
number, which is made of what it can start with. -/
def Joins (c d : Char) : Prop :=
  isNamePart c = true ∧ isNamePart d = true ∨ IsNumberStart c ∧ IsNumberStart d

/-- No lexeme reaches over the border between two texts. -/
def Parted (cs rest : List Char) : Prop := ∀ c ∈ cs.getLast?, ∀ d ∈ rest.head?, ¬ Joins c d

variable {c d : Char} {cs ds rest text : List Char} {t : Token}

/-- What stands side by side in a lexeme can. -/
theorem Spells.joins (h : Spells (cs ++ c :: d :: ds) t) : Joins c d := by
  have hc : c ∈ cs ++ c :: d :: ds := by simp
  have hd : d ∈ cs ++ c :: d :: ds := by simp
  rcases h.parts with ⟨e, he, -⟩ | hname | hnumber
  · -- a symbol is one character
    have hlen := congrArg List.length he
    simp only [List.length_append, List.length_cons, List.length_nil] at hlen
    omega
  · exact .inl ⟨hname c hc, hname d hd⟩
  · exact .inr ⟨hnumber c hc, hnumber d hd⟩

/-! ## Borders -/

/-- Nothing joins what does not run on into a name or a number. -/
theorem Apart.parted (h : Apart rest) (cs : List Char) : Parted cs rest := by
  intro c _ d hd hjoins
  obtain ⟨hname, hdigit, hpoint⟩ := h d hd
  rcases hjoins with ⟨-, hjoins⟩ | ⟨-, hjoins | hjoins⟩
  · rw [hname] at hjoins
    cases hjoins
  · rw [hdigit] at hjoins
    cases hjoins
  · exact hpoint hjoins

/-- The border of a text is that of its end. -/
theorem Parted.of_append (h : Parted (cs ++ ds) rest) : Parted ds rest := by
  intro c hc
  refine h c ?_
  rw [List.getLast?_append, Option.mem_def.mp hc]
  rfl

/-- A lexeme at the front does not reach over the border. -/
theorem Parted.prefix_left (hp : Parted cs rest) (hne : cs ≠ []) (h : Spells text t)
    (hpre : text <+: cs ++ rest) : text <+: cs := by
  rcases List.prefix_or_prefix_of_prefix hpre (List.prefix_append cs rest) with hpre' | ⟨more, rfl⟩
  · exact hpre'
  · rw [List.prefix_append_right_inj] at hpre
    cases more with
    | nil => exact (List.append_nil cs).symm ▸ List.prefix_refl cs
    | cons d ds =>
        -- the two characters at the border would stand side by side in it
        exfalso
        obtain ⟨k, rfl⟩ := hpre
        obtain ⟨init, c, rfl⟩ : ∃ init c, cs = init ++ [c] :=
          ⟨_, _, (List.dropLast_append_getLast hne).symm⟩
        rw [List.append_assoc] at h
        exact hp c (by simp) d (by simp) h.joins

/-- What is cut off a text is cut off it with more text behind. -/
theorem Lexeme.IsCut.append {l : Lexeme} (h : l.IsCut cs) (hp : Parted cs rest) :
    Lexeme.IsCut { l with rest := l.rest ++ rest } (cs ++ rest) where
  split := by rw [← h.split, List.append_assoc]
  spelled := h.spelled
  longest := by
    intro text t hpre hspelled
    have hne : cs ≠ [] := by
      rintro rfl
      exact h.spelled.ne_nil (List.append_eq_nil_iff.mp h.split).1
    exact h.longest text t (hp.prefix_left hne hspelled hpre) hspelled
  apart := by
    intro v hv hpoint
    have hv : l.token = .num v := hv
    cases hrest : l.rest with
    | cons d ds =>
        refine h.apart v hv ?_
        rw [hrest] at hpoint ⊢
        exact hpoint
    | nil =>
        -- the number stands at the border, and a point would go on with it
        rw [hrest] at hpoint
        have hsplit := h.split
        rw [hrest, List.append_nil] at hsplit
        obtain ⟨c, hc⟩ : ∃ c, cs.getLast? = some c :=
          ⟨_, List.getLast?_eq_some_getLast (hsplit ▸ h.spelled.ne_nil)⟩
        have hnumber : IsNumberStart c := by
          have hspelled := h.spelled
          rw [hv, hsplit] at hspelled
          generalize htoken : Token.num v = token at hspelled
          cases hspelled with
          | symbol hs =>
              rw [← htoken] at hs
              exact absurd (ofSymbol?_eq_some_iff.mpr hs) (ofSymbol?_ne_num _ v)
          | name _ _ => cases htoken
          | number hn _ => exact hn.isNumberStart c (List.mem_of_getLast? hc)
        exact hp c hc '.' hpoint (.inr ⟨hnumber, .inr rfl⟩)

/-- So is all of a text. -/
theorem CutInto.append {ls : List Lexeme} (h : CutInto cs ls ds) (hp : Parted (cs ++ ds) rest) :
    ∃ ls', CutInto cs ls' (ds ++ rest) ∧ ls'.map (·.token) = ls.map (·.token) := by
  induction h with
  | nil => exact ⟨[], .nil, rfl⟩
  | @blank c cs ds ls hc h ih =>
      have hp : Parted ([c] ++ (cs ++ ds)) rest := hp
      obtain ⟨ls', hcut, htokens⟩ := ih hp.of_append
      exact ⟨ls', .blank hc hcut, htokens⟩
  | @lexeme l cs ds ls hl h ih =>
      rw [List.append_assoc] at hp
      obtain ⟨ls', hcut, htokens⟩ := ih hp.of_append
      have hl' := hl.append hp
      rw [List.append_assoc, List.append_assoc] at hl'
      refine ⟨{ l with rest := l.rest ++ rest } :: ls', .lexeme hl' hcut, ?_⟩
      rw [List.map_cons, List.map_cons, htokens]

/-- **A text keeps its tokens** in front of a text that it is parted from. -/
theorem scanFrom_append {s : String} {ts : List Token} (h : scan s = .ok ts)
    (hp : Parted s.toList rest) (before : Option Char) (found : List Token) :
    ∃ before', scanFrom before found (s.toList ++ rest)
      = scanFrom before' (ts.reverse ++ found) rest := by
  rcases scan_cases s with ⟨ls, hcut, hs⟩ | ⟨_, _, _, _, -, -, -, hs⟩
  · obtain rfl := Except.ok.inj (hs.symm.trans h)
    rw [← List.append_nil s.toList] at hp
    obtain ⟨ls', hcut', htokens⟩ := hcut.append hp
    rw [List.nil_append] at hcut'
    rw [← htokens]
    exact ⟨_, scanFrom_cut hcut' before found⟩
  · rw [hs] at h
    cases h

/-- A text that is cut into tokens by itself is cut into them wherever it stands. -/
theorem cuts_of_scan {s : String} {ts : List Token} (h : scan (Text.compact s) = .ok ts) :
    Cuts s ts := by
  intro before found rest hrest
  exact scanFrom_append h (hrest.parted _) before found

/-- Two texts, the second behind the first, if no lexeme reaches over the border. -/
theorem scan_append_of_parted {s r : String} {ts us : List Token}
    (hs : scan (Text.compact s) = .ok ts) (hr : Cuts r us)
    (hp : Parted (Text.compact s).toList (Text.compact r).toList) :
    scan (Text.compact (s ++ r)) = .ok (ts ++ us) := by
  obtain ⟨b₁, h₁⟩ := scanFrom_append hs hp none []
  obtain ⟨b₂, h₂⟩ := hr b₁ (ts.reverse ++ []) [] apart_nil
  have hboth : (Text.compact (s ++ r)).toList
      = (Text.compact s).toList ++ ((Text.compact r).toList ++ []) := by
    rw [Text.toList_compact, String.toList_append, List.filter_append, List.append_nil,
      Text.toList_compact, Text.toList_compact]
  rw [scan, hboth, List.append_nil, h₁, ← List.append_nil (Text.compact r).toList, h₂, scanFrom]
  simp

/-! ## Tokens that need no blanks between them -/

/-- Whether a token stands for a value by itself. Only the spellings of such tokens can run on into
each other. -/
def isOperand : Token → Bool
  | num _ => true
  | ident _ => true
  | _ => false

/-- No two operands stand side by side. -/
def Spaced (ts : List Token) : Prop :=
  ts.IsChain fun t u => t.isOperand = true → u.isOperand = false

/-- A character that joins others is of an operand, since no symbol does. -/
theorem Spells.isOperand_of_mem (h : Spells cs t) (hc : c ∈ cs)
    (hpart : isNamePart c = true ∨ IsNumberStart c) : t.isOperand = true := by
  cases h with
  | symbol h =>
      obtain rfl := List.mem_singleton.mp hc
      have hsymbol := ofSymbol?_eq_some_iff.mpr h
      rcases hpart with hpart | hpart
      · rw [ofSymbol?_of_isNamePart hpart] at hsymbol
        cases hsymbol
      · rw [ofSymbol?_of_isNumberStart hpart] at hsymbol
        cases hsymbol
  | name _ _ => rfl
  | number _ _ => rfl

/-- A spelling is parted from one of a token that may come next. -/
theorem Spells.parted {t u : Token} (h : Spells cs t) (h' : Spells ds u)
    (htu : t.isOperand = true → u.isOperand = false) (rest : List Char) :
    Parted cs (ds ++ rest) := by
  obtain ⟨e, es, rfl⟩ := List.exists_cons_of_ne_nil h'.ne_nil
  intro c hc d hd hjoins
  obtain rfl : e = d := Option.some.inj hd
  have hc := List.mem_of_getLast? hc
  have hoperand : t.isOperand = true := by
    rcases hjoins with ⟨hjoins, -⟩ | ⟨hjoins, -⟩
    · exact h.isOperand_of_mem hc (.inl hjoins)
    · exact h.isOperand_of_mem hc (.inr hjoins)
  have hoperand' : u.isOperand = true := by
    rcases hjoins with ⟨-, hjoins⟩ | ⟨-, hjoins⟩
    · exact h'.isOperand_of_mem (.head _) (.inl hjoins)
    · exact h'.isOperand_of_mem (.head _) (.inr hjoins)
  rw [htu hoperand] at hoperand'
  cases hoperand'

/-- A spelling by itself is one lexeme. -/
theorem Spells.isCut (h : Spells cs t) : Lexeme.IsCut ⟨t, cs, []⟩ cs where
  split := List.append_nil cs
  spelled := h
  longest _ _ hpre _ := hpre.length_le
  apart _ _ hpoint := by cases hpoint

/-- **Spellings of spaced tokens need no blanks between them.** -/
theorem cutInto_flatten {ws : List (List Char)} {ts : List Token} (h : List.Forall₂ Spells ws ts)
    (hs : Spaced ts) : ∃ ls, CutInto ws.flatten ls [] ∧ ls.map (·.token) = ts := by
  induction h with
  | nil => exact ⟨[], .nil, rfl⟩
  | @cons w t ws ts hw h ih =>
      have hparted : Parted w ws.flatten := by
        cases h with
        | nil => intro c _ d hd; cases hd
        | cons hv _ => exact hw.parted hv (List.isChain_cons_cons.mp hs).1 _
      obtain ⟨ls, hcut, rfl⟩ := ih hs.tail
      have hl := hw.isCut.append hparted
      rw [← List.append_nil ws.flatten] at hl
      exact ⟨_, .lexeme hl hcut, rfl⟩

/-- A text whose blanks are taken away is cut as before if its tokens are spaced. -/
theorem scan_compact {s : String} {ts : List Token} (h : scan s = .ok ts) (hs : Spaced ts) :
    scan (Text.compact s) = .ok ts := by
  rcases scan_cases s with ⟨ls, hcut, hls⟩ | ⟨_, _, _, _, -, -, -, hf⟩
  · obtain rfl := Except.ok.inj (hls.symm.trans h)
    have hspells : List.Forall₂ Spells (ls.map (·.text)) (ls.map (·.token)) := by
      rw [List.forall₂_map_left_iff, List.forall₂_map_right_iff, List.forall₂_same]
      intro l hl
      obtain ⟨_, hl⟩ := hcut.isCut l hl
      exact hl.spelled
    obtain ⟨ls', hcut', htokens⟩ := cutInto_flatten hspells hs
    rw [hcut.flatten_text, ← Text.toList_compact] at hcut'
    rw [← htokens]
    exact scan_cut hcut'
  · rw [hf] at h
    cases h

end Token

/-! ## The tokens of an expression -/

namespace Token.Spaced

variable {ts us : List Token} {t : Token}

/-- An operator, a comma or a parenthesis may stand between any tokens. -/
theorem between (h : Spaced ts) (ht : t.isOperand = false) (h' : Spaced us) :
    Spaced (ts ++ t :: us) := by
  have hbehind : Spaced (t :: us) := by
    refine List.isChain_cons.mpr ⟨?_, h'⟩
    intro u _ hoperand
    rw [ht] at hoperand
    cases hoperand
  refine List.isChain_append.mpr ⟨h, hbehind, ?_⟩
  intro u _ v hv _
  obtain rfl : t = v := Option.some.inj hv
  exact ht

theorem nil : Spaced [] := List.IsChain.nil

theorem behind (ht : t.isOperand = false) (h : Spaced us) : Spaced (t :: us) := nil.between ht h

end Token.Spaced

open Token in
mutual

/-- **No two operands stand side by side in an expression.** -/
theorem Phrase.spaced : ∀ {k : Rank} (q : Phrase k), Spaced q.tokens
  | _, .num _ => by
      rw [Phrase.tokens]
      exact .singleton _
  | _, .name _ _ => by
      rw [Phrase.tokens]
      exact .singleton _
  | _, .group s => by
      rw [Phrase.tokens]
      exact .behind rfl (s.spaced.between rfl .nil)
  | _, .call f args _ => by
      have hname : Spaced [.ident f.name] := .singleton _
      have hcall := hname.between (t := .lpar) rfl (args.spaced.between (t := .rpar) rfl .nil)
      rw [Phrase.tokens]
      exact hcall
  | _, .ofAtom a => by
      rw [Phrase.tokens]
      exact a.spaced
  | _, .pow a b => by
      rw [Phrase.tokens]
      exact a.spaced.between rfl b.spaced
  | _, .ofPower p => by
      rw [Phrase.tokens]
      exact p.spaced
  | _, .plus p => by
      rw [Phrase.tokens]
      exact .behind rfl p.spaced
  | _, .minus p => by
      rw [Phrase.tokens]
      exact .behind rfl p.spaced
  | _, .ofSigned s => by
      rw [Phrase.tokens]
      exact s.spaced
  | _, .mul _ _ p s => by
      rw [Phrase.tokens]
      exact p.spaced.between rfl s.spaced
  | _, .ofProduct p => by
      rw [Phrase.tokens]
      exact p.spaced
  | _, .add _ _ s p => by
      rw [Phrase.tokens]
      exact s.spaced.between rfl p.spaced

theorem Arguments.spaced : ∀ {n : Nat} (args : Arguments n), Spaced args.tokens
  | _, .one s => by
      rw [Arguments.tokens]
      exact s.spaced
  | _, .more args s => by
      rw [Arguments.tokens]
      exact args.spaced.between rfl s.spaced

end

/-- The blanks of a text that is read do not matter. -/
theorem Parsed.ofText_compact {s : String} {p : Parsed} (h : Parsed.ofText s = .ok p) :
    Parsed.ofText (Text.compact s) = .ok p := by
  obtain ⟨hscan, q, hq, htree, hlisting⟩ := Parsed.stages h
  have hspaced : Token.Spaced p.tokens := hq ▸ q.spaced
  have hcompact := Token.scan_compact hscan hspaced
  obtain ⟨ts, l, e⟩ := p
  dsimp only at hq htree hlisting hcompact
  subst hq htree hlisting
  exact Parsed.ofText_eq hcompact

end Reckon
