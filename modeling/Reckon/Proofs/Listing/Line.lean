import Mathlib.Algebra.Ring.Int.Defs
import Reckon.Proofs.Display.Source
import Reckon.Proofs.Names.Replaced

/-!
# What the line of a listing says

An analysis displays its listing as a row of words. Every word is a text that the lexer would cut
into tokens of its own, and these tell what the word stands for (`Item.sameWord_of_text_eq`), with
one exception: the word for the sign, `neg`, could be the name of a variable. So a line says which
items it was made of up to the exchange of signs and variables of that name
(`Listing.line_eq_iff`).

The listing of a tree leaves one value. A variable puts a value on the stack and a sign does not, so
two listings with the same line have as many variables `neg` as each other, and if one of them has
none the listings are the same (`Listing.line_exact`).
-/

namespace Reckon

namespace Item

/-! ## Words -/

/-- An item of an expression with finite numbers: its literal is finite and its name is a name of
the lexer. -/
def Written : Item → Prop
  | num v => v.isFinite = true
  | var x => Token.IsName x
  | _ => True

/-- The tokens that the word of an item is cut into. -/
def tokens : Item → List Token
  | num v => Token.ofNumber v
  | var x => [.ident x]
  | op .neg => [.ident "neg"]
  | op (.bin o) => [.op o]
  | call f n => [.ident f.name, .op .div,
      .num (Number.ofDecimal false (.ofDigits (Nat.toDigits 10 n) []))]

theorem spells_abs {v : Float} (h : v.isFinite = true) :
    Token.Spells (Number.Format.binary64.shortest (Number.code v)).chars (.num v.abs) :=
  .number (Token.numeral_chars _)
    (Number.roundsTo_iff.mpr (Number.ofDecimal_shortest_spelled h).symm)

theorem spells_count (n : Nat) : Token.Spells (Nat.toDigits 10 n)
    (.num (Number.ofDecimal false (.ofDigits (Nat.toDigits 10 n) []))) :=
  .number (.whole Nat.toDigits_ne_nil fun _ hc =>
    Nat.isDigit_of_mem_toDigits (b := 10) (by decide) (by decide) hc) (Number.roundsTo_iff.mpr rfl)

theorem toList_text_call (f : Builtin) (n : Nat) :
    (call f n).text.toList = f.name.toList ++ '/' :: Nat.toDigits 10 n := by
  have hslash : (toString "/").toList = ['/'] := rfl
  have hname : toString f.name = f.name := rfl
  simp only [text, String.toList_append, hname, hslash, List.append_assoc, List.singleton_append,
    Nat.toString_eq_repr, Nat.toList_repr]

/-- A word is put together from spellings of its tokens. -/
theorem exists_spellings {i : Item} (h : i.Written) :
    ∃ ws, i.text.toList = ws.flatten ∧ List.Forall₂ Token.Spells ws i.tokens := by
  cases i with
  | num v =>
      have hfin : v.isFinite = true := h
      have hspells := spells_abs hfin
      rw [text, tokens, Token.ofNumber, if_pos hfin, Number.text_of_isFinite hfin]
      split
      · exact ⟨[['-'], _], by simp, .cons (.symbol (by decide)) (.cons hspells .nil)⟩
      · exact ⟨[_], by simp, .cons hspells .nil⟩
  | var x => exact ⟨[x.toList], by simp [text], .cons (Token.spells_name h) .nil⟩
  | op o =>
      cases o with
      | neg => exact ⟨[_], by rfl, .cons (Token.spells_name (Token.isName_of_chars rfl)) .nil⟩
      | bin o => cases o <;> exact ⟨[[_]], by rfl, .cons (.symbol (by decide)) .nil⟩
  | call f n =>
      refine ⟨[f.name.toList, ['/'], Nat.toDigits 10 n], ?_,
        .cons (Token.spells_name (Token.isName_name f))
          (.cons (.symbol (by decide)) (.cons (spells_count n) .nil))⟩
      rw [toList_text_call]
      simp

theorem spaced_tokens (i : Item) : Token.Spaced i.tokens := by
  unfold Token.Spaced
  cases i with
  | num v =>
      rw [tokens, Token.ofNumber]
      split
      · split <;> simp [Token.isOperand]
      · simp
  | var x => simp [tokens]
  | op o => cases o <;> simp [tokens]
  | call f n => simp [tokens, Token.isOperand]

theorem scan_text {i : Item} (h : i.Written) : Token.scan i.text = .ok i.tokens := by
  obtain ⟨ws, htext, hspells⟩ := exists_spellings h
  obtain ⟨ls, hcut, hls⟩ := Token.cutInto_flatten hspells i.spaced_tokens
  rw [← htext] at hcut
  rw [← hls]
  exact Token.scan_cut hcut

/-- There is no blank in a word. -/
theorem space_not_mem_text {i : Item} (h : i.Written) : ' ' ∉ i.text.toList := by
  obtain ⟨ws, htext, hspells⟩ := exists_spellings h
  have hblank : List.Forall₂ (fun w t => ' ' ∉ w ∧ Token.Spells w t) ws i.tokens :=
    hspells.imp fun w t ht => ⟨fun hspace => absurd (ht.isBlank ' ' hspace) (by decide), ht⟩
  rw [htext, List.mem_flatten]
  rintro ⟨w, hw, hspace⟩
  exact ((List.forall₂_and_left _ _).mp hblank).1 w hw hspace

/-- Two items with one word: they are the same, or they are the sign and a variable of its name. -/
inductive SameWord : Item → Item → Prop
  | refl (i : Item) : SameWord i i
  | sign : SameWord (op .neg) (var "neg")
  | name : SameWord (var "neg") (op .neg)

theorem SameWord.text_eq {i j : Item} (h : i.SameWord j) : i.text = j.text := by
  cases h <;> rfl

theorem ofNumber_injective {v w : Float} (hv : v.isFinite = true) (hw : w.isFinite = true)
    (h : Token.ofNumber v = Token.ofNumber w) : v = w := by
  rw [Token.ofNumber, Token.ofNumber, if_pos hv, if_pos hw] at h
  cases hsv : Number.isSigned v <;> cases hsw : Number.isSigned w <;>
    simp only [hsv, hsw, if_true, if_false, Bool.false_eq_true, List.cons.injEq, Token.num.injEq,
      and_true, true_and, reduceCtorEq, false_and] at h
  · rwa [Number.abs_of_not_isSigned hv hsv, Number.abs_of_not_isSigned hw hsw] at h
  · rw [← Number.neg_abs_of_isSigned hv hsv, h, Number.neg_abs_of_isSigned hw hsw]

theorem call_eq_of_text_eq {f g : Builtin} {n m : Nat} (hfg : f = g)
    (h : (call f n).text = (call g m).text) : call f n = call g m := by
  subst hfg
  have hdigits := congrArg String.toList h
  rw [toList_text_call, toList_text_call, List.append_cancel_left_eq, List.cons.injEq] at hdigits
  have hcount : n = m :=
    calc n = Nat.ofDigitChars 10 (Nat.toDigits 10 n) 0 := Nat.ofDigitChars_ten_toDigits.symm
      _ = Nat.ofDigitChars 10 (Nat.toDigits 10 m) 0 := by rw [hdigits.2]
      _ = m := Nat.ofDigitChars_ten_toDigits
  rw [hcount]

/-- The word of a number is that of no other item. -/
theorem eq_num_of_tokens_eq {v : Float} {i : Item} (hv : v.isFinite = true) (hi : i.Written)
    (h : i.tokens = (num v).tokens) : i = num v := by
  have hnumber : (num v).tokens = [.num v.abs] ∨ (num v).tokens = [.op .sub, .num v.abs] := by
    rw [tokens, Token.ofNumber, if_pos hv]
    split
    · exact .inr rfl
    · exact .inl rfl
  cases i with
  | num w => rw [ofNumber_injective hi hv h]
  | op o =>
      rcases hnumber with hnumber | hnumber <;> rw [hnumber] at h <;> cases o <;>
        simp [tokens] at h
  | _ => rcases hnumber with hnumber | hnumber <;> rw [hnumber] at h <;> simp [tokens] at h

/-- **What a word says.** -/
theorem sameWord_of_text_eq {i j : Item} (hi : i.Written) (hj : j.Written)
    (h : i.text = j.text) : i.SameWord j := by
  have htokens : i.tokens = j.tokens := by
    have hscan := scan_text hi
    rw [h, scan_text hj] at hscan
    exact (Except.ok.inj hscan).symm
  rcases i with v | x | (_ | o) | ⟨f, n⟩
  · rw [eq_num_of_tokens_eq hi hj htokens.symm]
    exact .refl _
  -- two words that are no numbers are cut into tokens of the same kinds in these cases only
  all_goals
    rcases j with w | y | (_ | o') | ⟨g, m⟩
    · rw [eq_num_of_tokens_eq hj hi htokens]
      exact .refl _
    all_goals try simp [tokens] at htokens
  case var.var =>
    rw [htokens]
    exact .refl _
  case var.op.neg =>
    rw [htokens]
    exact .name
  case op.neg.var =>
    rw [← htokens]
    exact .sign
  case op.neg.op.neg => exact .refl _
  case op.bin.op.bin =>
    rw [htokens]
    exact .refl _
  case call.call =>
    have hf : f = g := Option.some.inj <| by
      rw [← Builtin.ofName?_name f, ← Builtin.ofName?_name g, htokens.1]
    rw [call_eq_of_text_eq hf h]
    exact .refl _

/-! ## The height of the stack -/

/-- By how many values an item raises the stack. -/
def rise : Item → Int
  | num _ | var _ => 1
  | op .neg => 0
  | op (.bin _) => -1
  | call _ n => 1 - n

end Item

namespace Listing

open Item (SameWord Written rise)

variable {l k : Listing}

theorem map_text_eq_iff (hl : ∀ i ∈ l, i.Written) (hk : ∀ i ∈ k, i.Written) :
    l.map Item.text = k.map Item.text ↔ List.Forall₂ SameWord l k := by
  constructor
  · intro h
    induction l generalizing k with
    | nil =>
        obtain rfl := List.map_eq_nil_iff.mp h.symm
        exact .nil
    | cons i l ih =>
        obtain ⟨j, k, rfl, hij, hrest⟩ := List.map_eq_cons_iff.mp h.symm
        exact .cons (Item.sameWord_of_text_eq (hl i (.head _)) (hk j (.head _)) hij.symm)
          (ih (fun i hi => hl i (.tail _ hi)) (fun j hj => hk j (.tail _ hj)) hrest.symm)
  · intro h
    induction h with
    | nil => rfl
    | cons hij _ ih =>
        rw [List.map_cons, List.map_cons, hij.text_eq,
          ih (fun i hi => hl i (.tail _ hi)) fun j hj => hk j (.tail _ hj)]

/-- **What a line says.** -/
theorem line_eq_iff (hl : ∀ i ∈ l, i.Written) (hk : ∀ i ∈ k, i.Written) (hl' : l ≠ [])
    (hk' : k ≠ []) : l.line = k.line ↔ List.Forall₂ SameWord l k := by
  rw [← map_text_eq_iff hl hk]
  refine ⟨fun h => ?_, fun h => by rw [line, line, h]⟩
  -- no word has a blank in it, so the line is cut back into its words at the blanks
  have hsplit : ∀ {l : Listing}, (∀ i ∈ l, i.Written) → l ≠ [] →
      l.line.toList.splitOn ' ' = (l.map Item.text).map String.toList := by
    intro l hl hne
    rw [line, String.toList_intercalate]
    refine List.splitOn_intercalate ' ' (fun w hw => ?_) (by simpa using hne)
    obtain ⟨s, hs, rfl⟩ := List.mem_map.mp hw
    obtain ⟨i, hi, rfl⟩ := List.mem_map.mp hs
    exact Item.space_not_mem_text (hl i hi)
  have hwords := hsplit hl hl'
  rw [h, hsplit hk hk'] at hwords
  exact (List.map_injective_iff.mpr fun _ _ => String.toList_inj.mp) hwords.symm

/-- Items with the same words raise the stack alike, apart from variables that are signs in the
other listing. -/
theorem sum_rise_of_sameWord (h : List.Forall₂ SameWord l k) :
    (l.map rise).sum - l.count (.var "neg") = (k.map rise).sum - k.count (.var "neg") := by
  induction h with
  | nil => rfl
  | cons hij h ih =>
      simp only [List.map_cons, List.sum_cons, List.count_cons]
      cases hij with
      | refl i => omega
      | sign =>
          simp [rise]
          omega
      | name =>
          simp [rise]
          omega

theorem eq_of_sameWord (h : List.Forall₂ SameWord l k) (hl : .var "neg" ∉ l)
    (hk : .var "neg" ∉ k) : l = k := by
  induction h with
  | nil => rfl
  | cons hij _ ih =>
      rw [List.mem_cons, not_or] at hl hk
      rw [ih hl.2 hk.2]
      cases hij with
      | refl i => rfl
      | sign => exact absurd rfl hk.1
      | name => exact absurd rfl hl.1

theorem sum_rise_itemsOfAll {args : List Expr} (h : ∀ e ∈ args, (e.items.map rise).sum = 1) :
    ((Expr.itemsOfAll args).map rise).sum = args.length := by
  induction args with
  | nil => rfl
  | cons e args ih =>
      rw [Expr.itemsOfAll, List.map_append, List.sum_append, h e (.head _),
        ih fun a ha => h a (.tail _ ha), List.length_cons]
      omega

/-- The listing of a tree leaves one value. -/
theorem sum_rise_items (e : Expr) : (e.items.map rise).sum = 1 := by
  induction e using Expr.induction with
  | num v => rfl
  | var x => rfl
  | neg e ih => simp [Expr.items, rise, ih]
  | bin op a b iha ihb => simp [Expr.items, rise, iha, ihb]
  | call f args ih =>
      rw [Expr.items, List.map_append, List.sum_append, sum_rise_itemsOfAll ih]
      simp only [List.map_cons, List.map_nil, rise, List.sum_cons, List.sum_nil]
      omega

theorem items_ne_nil (e : Expr) : e.items ≠ [] := by
  intro h
  have hsum := sum_rise_items e
  rw [h] at hsum
  cases hsum

/-! ## Listings of expressions -/

theorem written_append {front : Listing} {i : Item} (hfront : ∀ j ∈ front, j.Written)
    (hi : i.Written) : ∀ j ∈ front ++ [i], j.Written :=
  List.forall_mem_append.mpr ⟨hfront, List.forall_mem_singleton.mpr hi⟩

theorem written_items {e : Expr} (h : e.Readable (·.isFinite = true)) :
    ∀ i ∈ e.items, i.Written := by
  induction h with
  | num hv => exact List.forall_mem_singleton.mpr hv
  | var spelled _ => exact List.forall_mem_singleton.mpr spelled
  | neg _ ih => exact written_append ih trivial
  | bin _ _ iha ihb => exact written_append (List.forall_mem_append.mpr ⟨iha, ihb⟩) trivial
  | call _ _ ih =>
      refine written_append (fun i hi => ?_) trivial
      rw [Expr.itemsOfAll_eq_flatMap, List.mem_flatMap] at hi
      obtain ⟨e, he, hi⟩ := hi
      exact ih e he i hi

theorem var_not_mem {ts : List Token} {q : Phrase .sum} (hq : q.tokens = ts) {x : String}
    (hx : .ident x ∉ ts) : .var x ∉ q.tree.items := by
  intro hvar
  have hname : x ∈ q.tree.names := List.mem_filterMap.mpr ⟨.var x, hvar, rfl⟩
  obtain ⟨t, ht, htx⟩ := List.mem_filterMap.mp (q.names_sublist.subset hname)
  rw [hq] at ht
  cases t with
  | ident y =>
      obtain rfl := Option.some.inj htx
      exact hx ht
  | _ => cases htx

/-- **The line of a listing says which expression it is, up to signs and variables of their name.**
Two expressions with finite numbers have the same line exactly if their listings are the same but
for places where one has the sign and the other a variable `neg`; and of these there are as many
either way. So if one of the two expressions does without this name, the listings are equal, and so
are the trees and their values in every scope. -/
theorem line_exact {ts us : List Token} {l k : Listing}
    (hts : ∀ t ∈ ts, t.Lexed (·.isFinite = true)) (hus : ∀ t ∈ us, t.Lexed (·.isFinite = true))
    (hl : Listing.ofTokens ts = .ok l) (hk : Listing.ofTokens us = .ok k) :
    (l.line = k.line ↔ List.Forall₂ SameWord l k)
    ∧ (l.line = k.line → l.count (.var "neg") = k.count (.var "neg"))
    ∧ (l.line = k.line → .ident "neg" ∉ ts ∨ .ident "neg" ∉ us →
        l = k ∧ (∃ e, Expr.ofListing l = .ok e ∧ Expr.ofListing k = .ok e)
        ∧ ∀ scope, evaluateTokens ts scope = evaluateTokens us scope) := by
  obtain ⟨q, hq, rfl⟩ := exists_phrase_of_ofTokens hl
  obtain ⟨r, hr, rfl⟩ := exists_phrase_of_ofTokens hk
  have hwritten := written_items (q.readable (hq ▸ hts))
  have hwritten' := written_items (r.readable (hr ▸ hus))
  rw [Expr.listing_eq_items, Expr.listing_eq_items]
  have hline := line_eq_iff hwritten hwritten' (items_ne_nil _) (items_ne_nil _)
  have hcount : q.tree.items.line = r.tree.items.line →
      q.tree.items.count (.var "neg") = r.tree.items.count (.var "neg") := by
    intro h
    have hsum := sum_rise_of_sameWord (hline.mp h)
    rw [sum_rise_items, sum_rise_items] at hsum
    omega
  refine ⟨hline, hcount, fun h hneg => ?_⟩
  -- both have as many of these variables, so if one has none the other has none either
  have hnone : .var "neg" ∉ q.tree.items ∧ .var "neg" ∉ r.tree.items := by
    have hcount := hcount h
    rcases hneg with hneg | hneg
    · have hvar := var_not_mem hq hneg
      rw [List.count_eq_zero.mpr hvar] at hcount
      exact ⟨hvar, List.count_eq_zero.mp hcount.symm⟩
    · have hvar := var_not_mem hr hneg
      rw [List.count_eq_zero.mpr hvar] at hcount
      exact ⟨List.count_eq_zero.mp hcount, hvar⟩
  have hitems := eq_of_sameWord (hline.mp h) hnone.1 hnone.2
  have htree : q.tree = r.tree := Expr.listing_injective <| by
    rw [Expr.listing_eq_items, Expr.listing_eq_items, hitems]
  refine ⟨hitems, ⟨r.tree, ?_, ?_⟩, fun scope => ?_⟩
  · rw [hitems, ← Expr.listing_eq_items, Expr.ofListing_listing]
  · rw [← Expr.listing_eq_items, Expr.ofListing_listing]
  · rw [← hq, ← hr, evaluateTokens_phrase, evaluateTokens_phrase, htree]

/-- A sign in front of a number, and the same with parentheses around the two. -/
theorem line_exact_of_group :
    let ts : List Token := [.op .sub, .num 2, .op .add, .ident "x"]
    let us : List Token := [.lpar, .op .sub, .num 2, .rpar, .op .add, .ident "x"]
    (∀ t ∈ ts, t.Lexed (·.isFinite = true)) ∧ (∀ t ∈ us, t.Lexed (·.isFinite = true))
    ∧ ∃ l k, Listing.ofTokens ts = .ok l ∧ Listing.ofTokens us = .ok k ∧ l.line = k.line
      ∧ (.ident "neg" ∉ ts ∨ .ident "neg" ∉ us)
      ∧ l = k ∧ ∀ scope, evaluateTokens ts scope = evaluateTokens us scope := by
  intro ts us
  have hlexed : ∀ t ∈ ts ++ us, t.Lexed (·.isFinite = true) := by
    intro t ht
    simp only [ts, us, List.mem_append, List.mem_cons, List.not_mem_nil, or_false] at ht
    rcases ht with (rfl | rfl | rfl | rfl) | rfl | rfl | rfl | rfl | rfl | rfl <;>
      first | trivial | exact Token.isName_of_chars rfl
  have hts : ∀ t ∈ ts, t.Lexed (·.isFinite = true) := fun t ht =>
    hlexed t (List.mem_append_left _ ht)
  have hus : ∀ t ∈ us, t.Lexed (·.isFinite = true) := fun t ht =>
    hlexed t (List.mem_append_right _ ht)
  have hl : Listing.ofTokens ts = .ok [.num 2, .op .neg, .var "x", .op (.bin .add)] := rfl
  have hk : Listing.ofTokens us = .ok [.num 2, .op .neg, .var "x", .op (.bin .add)] := rfl
  have hneg : Token.ident "neg" ∉ ts ∨ Token.ident "neg" ∉ us := .inl (by decide +kernel)
  obtain ⟨heq, -, hvalue⟩ := (line_exact hts hus hl hk).2.2 rfl hneg
  exact ⟨hts, hus, _, _, hl, hk, rfl, hneg, heq, hvalue⟩

/-- A sum with an opposite, and a sum of an opposite: where the one has its sign the other has the
variable, and their values differ. -/
theorem line_of_variable_neg :
    let ts : List Token := [.ident "x", .op .add, .op .sub, .ident "neg"]
    let us : List Token := [.op .sub, .ident "x", .op .add, .ident "neg"]
    let scope := Scope.ofList [("neg", 3), ("x", 1)]
    (∀ t ∈ ts, t.Lexed (·.isFinite = true)) ∧ (∀ t ∈ us, t.Lexed (·.isFinite = true))
    ∧ ∃ l k, Listing.ofTokens ts = .ok l ∧ Listing.ofTokens us = .ok k
      ∧ l.line = "x neg neg +" ∧ k.line = "x neg neg +" ∧ l ≠ k
      ∧ (evaluateTokens ts scope).toOption = some (-2)
      ∧ (evaluateTokens us scope).toOption = some 2 := by
  intro ts us scope
  have hlexed : ∀ t ∈ ts ++ us, t.Lexed (·.isFinite = true) := by
    intro t ht
    simp only [ts, us, List.mem_append, List.mem_cons, List.not_mem_nil, or_false] at ht
    rcases ht with (rfl | rfl | rfl | rfl) | rfl | rfl | rfl | rfl <;>
      first | trivial | exact Token.isName_of_chars rfl
  refine ⟨fun t ht => hlexed t (List.mem_append_left _ ht),
    fun t ht => hlexed t (List.mem_append_right _ ht),
    [.var "x", .var "neg", .op .neg, .op (.bin .add)],
    [.var "x", .op .neg, .var "neg", .op (.bin .add)], rfl, rfl, by decide +kernel,
    by decide +kernel, by decide +kernel, by decide +kernel, by decide +kernel⟩

end Listing

end Reckon
