import Mathlib.Data.List.Induction
import Mathlib.Data.List.Nodup
import Reckon.Proofs.Display.Bound
import Reckon.Proofs.Names.Free
import Reckon.Window.Row

/-!
# The scope that rows spell

The rows are read from the top into a scope that grows, and the first row that does not fit ends the
reading. What comes of it can be said without any order: rows are `Sound` if all that count have a
name and a value and no two have the same name, sound rows spell the scope of just these bindings
(`Spell`), and rows that are not sound have a first one that is faulty after those above it
(`Faulty`). Whether a row can be added to the scope of the rows above it depends on their names
alone, so the three ways to go on with a row (`cases_row`) carry the whole argument.

The names are those of the lexer, and a name that is bound can be evaluated by itself.
-/

namespace Reckon

namespace Row

variable {rows above below : List Row} {row : Row} {scope : Scope} {order : Scope.Order}
  {x : String} {v : Float}

/-! ## What a row says -/

/-- The name of a row, without the blanks around it. -/
def key (row : Row) : String := Text.trim row.name

/-- The number that the value of a row spells, if it spells one. -/
def given? (row : Row) : Option Float := Number.ofText? (Text.trim row.value)

/-- Whether a row is no row at all. -/
def isVoid (row : Row) : Bool := row.key.isEmpty && (Text.trim row.value).isEmpty

/-- The names of the rows that count. -/
def keys (rows : List Row) : List String := (rows.filter fun row => !row.isVoid).map key

/-- A row binds a name to a number. -/
structure Binds (row : Row) (x : String) (v : Float) : Prop where
  key : row.key = x
  named : isName x = true
  given : row.given? = some v

/-- What is wrong with a row after rows of some names. The name is looked at first, then the value,
and then whether the name is taken. -/
inductive Faulty (taken : List String) (row : Row) : RowFault → Prop
  | badName (counts : row.isVoid = false) (h : isName row.key = false) :
      Faulty taken row (.badName row.key)
  | badValue (named : isName row.key = true) (h : row.given? = none) :
      Faulty taken row (.badValue row.key (Text.trim row.value))
  | repeatedName {v : Float} (h : row.Binds row.key v) (again : row.key ∈ taken) :
      Faulty taken row (.repeatedName row.key)

/-- Rows that can be read: those that count bind their names, and no two the same. -/
structure Sound (rows : List Row) : Prop where
  bind : ∀ row ∈ rows, row.isVoid = false → ∃ v, row.Binds row.key v
  distinct : (keys rows).Nodup

theorem sound_iff : Sound rows
    ↔ (∀ row ∈ rows, row.isVoid = false → isName row.key = true ∧ row.given?.isSome = true)
      ∧ (keys rows).Nodup := by
  constructor
  · intro h
    refine ⟨fun row hrow hvoid => ?_, h.distinct⟩
    obtain ⟨v, hbinds⟩ := h.bind row hrow hvoid
    exact ⟨hbinds.named, Option.isSome_iff_exists.mpr ⟨v, hbinds.given⟩⟩
  · rintro ⟨hvalid, hdistinct⟩
    refine ⟨fun row hrow hvoid => ?_, hdistinct⟩
    obtain ⟨hname, hgiven⟩ := hvalid row hrow hvoid
    obtain ⟨v, hv⟩ := Option.isSome_iff_exists.mp hgiven
    exact ⟨v, rfl, hname, hv⟩

instance : DecidablePred Sound := fun _ => decidable_of_iff _ sound_iff.symm

/-- Rows spell a scope if it binds what they bind and nothing else. -/
def Spell (rows : List Row) (scope : Scope) : Prop :=
  ∀ x v, scope.find? x = some v ↔ ∃ row ∈ rows, row.Binds x v

theorem isVoid_of_isName (h : isName row.key = true) : row.isVoid = false := by
  rw [isVoid, Bool.and_eq_false_iff]
  left
  rw [← Bool.not_eq_true, String.isEmpty_iff]
  intro hempty
  rw [hempty] at h
  cases h

theorem Binds.isVoid (h : row.Binds x v) : row.isVoid = false :=
  isVoid_of_isName (h.key ▸ h.named)

/-- A row that counts has one name, and one value at most. -/
theorem Binds.mem_keys (h : row.Binds x v) (hrow : row ∈ rows) : x ∈ keys rows := by
  rw [← h.key]
  refine List.mem_map_of_mem (List.mem_filter.mpr ⟨hrow, ?_⟩)
  rw [h.isVoid, Bool.not_false]

theorem mem_keys_iff : x ∈ keys rows ↔ ∃ row ∈ rows, row.isVoid = false ∧ row.key = x := by
  simp only [keys, List.mem_map, List.mem_filter, Bool.not_eq_true', and_assoc]

theorem keys_append (rows rows' : List Row) : keys (rows ++ rows') = keys rows ++ keys rows' := by
  rw [keys, List.filter_append, List.map_append]
  rfl

theorem keys_singleton_of_isVoid (h : row.isVoid = true) : keys [row] = [] := by
  rw [keys, List.filter_cons_of_neg (by simp [h])]
  rfl

theorem keys_singleton (h : row.isVoid = false) : keys [row] = [row.key] := by
  rw [keys, List.filter_cons_of_pos (by simp [h])]
  rfl

/-! ## One row -/

/-- **The three ways to go on with a row**: it does not count, or it binds a name that is not taken,
or something is wrong with it. -/
theorem cases_row (taken : List String) (row : Row) :
    row.isVoid = true ∨ (∃ v, row.Binds row.key v ∧ row.key ∉ taken)
    ∨ ∃ e, row.Faulty taken e := by
  by_cases hvoid : row.isVoid = true
  · exact .inl hvoid
  rw [Bool.not_eq_true] at hvoid
  right
  by_cases hname : isName row.key = true
  · cases hvalue : row.given? with
    | none => exact .inr ⟨_, .badValue hname hvalue⟩
    | some v =>
        have hbinds : row.Binds row.key v := ⟨rfl, hname, hvalue⟩
        by_cases htaken : row.key ∈ taken
        · exact .inr ⟨_, .repeatedName hbinds htaken⟩
        · exact .inl ⟨v, hbinds, htaken⟩
  · rw [Bool.not_eq_true] at hname
    exact .inr ⟨_, .badName hvoid hname⟩

theorem addTo_of_isVoid (scope : Scope) (h : row.isVoid = true) : addTo scope row = .ok scope :=
  if_pos h

theorem not_isEmpty_of_isVoid (h : row.isVoid = false) :
    ¬ ((Text.trim row.name).isEmpty && (Text.trim row.value).isEmpty) = true := by
  rw [Bool.not_eq_true]
  exact h

/-- The name of a row that counts is looked at first. -/
theorem addTo_of_badName (scope : Scope) (counts : row.isVoid = false)
    (h : isName row.key = false) : addTo scope row = .error (.badName row.key) := by
  unfold key at h ⊢
  unfold addTo
  dsimp only
  rw [if_neg (not_isEmpty_of_isVoid counts), h]
  rfl

/-- Then its value is. -/
theorem addTo_of_badValue (scope : Scope) (named : isName row.key = true)
    (h : row.given? = none) :
    addTo scope row = .error (.badValue row.key (Text.trim row.value)) := by
  have hcounts := not_isEmpty_of_isVoid (isVoid_of_isName named)
  unfold key at named ⊢
  unfold given? at h
  unfold addTo
  dsimp only
  rw [if_neg hcounts, named, h]
  rfl

/-- And then whether the name is taken. -/
theorem Binds.addTo_eq (h : row.Binds x v) (scope : Scope) : addTo scope row =
    if (scope.find? x).isSome then .error (.repeatedName x) else .ok (scope.insert x v) := by
  obtain ⟨rfl, named, hgiven⟩ := h
  have hcounts := not_isEmpty_of_isVoid (isVoid_of_isName named)
  unfold Row.key at named ⊢
  unfold given? at hgiven
  unfold addTo
  dsimp only
  rw [if_neg hcounts, named, hgiven]
  rfl

/-! ## The rows above -/

/-- In the scope of sound rows their names are taken. -/
theorem Spell.isSome_find?_iff (h : Spell above scope) (hsound : Sound above) :
    (scope.find? x).isSome = true ↔ x ∈ keys above := by
  rw [Option.isSome_iff_exists]
  constructor
  · rintro ⟨v, hv⟩
    obtain ⟨row, hrow, hbinds⟩ := (h x v).mp hv
    exact hbinds.mem_keys hrow
  · intro hx
    obtain ⟨row, hrow, hvoid, rfl⟩ := mem_keys_iff.mp hx
    obtain ⟨v, hbinds⟩ := hsound.bind row hrow hvoid
    exact ⟨v, (h _ v).mpr ⟨row, hrow, hbinds⟩⟩

theorem Faulty.addTo_eq {e : RowFault} (h : row.Faulty (keys above) e) (hspell : Spell above scope)
    (hsound : Sound above) : addTo scope row = .error e := by
  cases h with
  | badName counts h => exact addTo_of_badName scope counts h
  | badValue named h => exact addTo_of_badValue scope named h
  | repeatedName h again =>
      rw [h.addTo_eq scope]
      exact if_pos ((hspell.isSome_find?_iff hsound).mpr again)

theorem Spell.snoc_isVoid (h : Spell above scope) (hvoid : row.isVoid = true) :
    Spell (above ++ [row]) scope := by
  intro x v
  rw [h x v]
  constructor
  · rintro ⟨row', hrow', hbinds⟩
    exact ⟨row', List.mem_append_left _ hrow', hbinds⟩
  · rintro ⟨row', hrow', hbinds⟩
    rcases List.mem_append.mp hrow' with hrow' | hrow'
    · exact ⟨row', hrow', hbinds⟩
    · obtain rfl := List.mem_singleton.mp hrow'
      rw [hbinds.isVoid] at hvoid
      cases hvoid

theorem Spell.snoc_binds (h : Spell above scope) {w : Float} (hrow : row.Binds row.key w)
    (hfree : row.key ∉ keys above) : Spell (above ++ [row]) (scope.insert row.key w) := by
  intro x v
  rw [Scope.find?_insert]
  constructor
  · intro hv
    split at hv
    · rename_i hx
      cases hv
      exact ⟨row, by simp, hx ▸ hrow⟩
    · obtain ⟨row', hrow', hbinds⟩ := (h x v).mp hv
      exact ⟨row', List.mem_append_left _ hrow', hbinds⟩
  · rintro ⟨row', hrow', hbinds⟩
    rcases List.mem_append.mp hrow' with hrow' | hrow'
    · have hne : x ≠ row.key := by
        rintro rfl
        exact hfree (hbinds.mem_keys hrow')
      rw [if_neg hne]
      exact (h x v).mpr ⟨row', hrow', hbinds⟩
    · obtain rfl := List.mem_singleton.mp hrow'
      rw [if_pos hbinds.key.symm, ← hrow.given, hbinds.given]

/-! ## All rows -/

theorem scopeOf_append (h : scopeOf above order = .ok scope) (below : List Row) :
    scopeOf (above ++ below) order = below.foldlM addTo scope := by
  unfold scopeOf at h ⊢
  rw [List.foldlM_append, h]
  simp only [bind, Except.bind]

theorem scopeOf_snoc (h : scopeOf above order = .ok scope) (row : Row) :
    scopeOf (above ++ [row]) order = addTo scope row := by
  rw [scopeOf_append h, List.foldlM_cons]
  exact bind_pure (addTo scope row)

theorem Sound.of_append (h : Sound (above ++ below)) : Sound above where
  bind row hrow := h.bind row (List.mem_append_left _ hrow)
  distinct := (List.nodup_append.mp (keys_append above below ▸ h.distinct)).1

theorem Sound.snoc (h : Sound above)
    (hrow : row.isVoid = true ∨ ∃ v, row.Binds row.key v ∧ row.key ∉ keys above) :
    Sound (above ++ [row]) where
  bind row' hrow' hvoid := by
    rcases List.mem_append.mp hrow' with hrow' | hrow'
    · exact h.bind row' hrow' hvoid
    · obtain rfl := List.mem_singleton.mp hrow'
      rcases hrow with hrow | ⟨v, hbinds, -⟩
      · rw [hrow] at hvoid
        cases hvoid
      · exact ⟨v, hbinds⟩
  distinct := by
    rw [keys_append]
    rcases hrow with hrow | ⟨v, hbinds, hfree⟩
    · rw [keys_singleton_of_isVoid hrow, List.append_nil]
      exact h.distinct
    · rw [keys_singleton hbinds.isVoid]
      refine List.nodup_append.mpr ⟨h.distinct, List.nodup_singleton _, ?_⟩
      intro x hx y hy hxy
      rw [List.mem_singleton.mp hy] at hxy
      exact hfree (hxy ▸ hx)

/-- **Sound rows are read**, and the scope is the one that they spell. -/
theorem Sound.exists_scopeOf (h : Sound rows) (order : Scope.Order) :
    ∃ scope, scopeOf rows order = .ok scope ∧ Spell rows scope := by
  induction rows using List.reverseRecOn with
  | nil => exact ⟨Scope.empty.inOrder order, rfl, fun x v => by simp⟩
  | append_singleton above row ih =>
      obtain ⟨scope, hscope, hspell⟩ := ih h.of_append
      have hdistinct := h.distinct
      rw [keys_append] at hdistinct
      by_cases hvoid : row.isVoid = true
      · refine ⟨scope, ?_, hspell.snoc_isVoid hvoid⟩
        rw [scopeOf_snoc hscope, addTo_of_isVoid scope hvoid]
      · rw [Bool.not_eq_true] at hvoid
        obtain ⟨v, hbinds⟩ := h.bind row (by simp) hvoid
        rw [keys_singleton hvoid, List.nodup_append] at hdistinct
        have hfree : row.key ∉ keys above := fun hmem =>
          hdistinct.2.2 _ hmem _ (.head _) rfl
        refine ⟨scope.insert row.key v, ?_, hspell.snoc_binds hbinds hfree⟩
        rw [scopeOf_snoc hscope, hbinds.addTo_eq scope]
        exact if_neg fun hsome => hfree ((hspell.isSome_find?_iff h.of_append).mp hsome)

/-- A faulty row after sound ones ends the reading. -/
theorem Sound.scopeOf_faulty {e : RowFault} (h : Sound above) (hrow : row.Faulty (keys above) e)
    (below : List Row) : scopeOf (above ++ row :: below) order = .error e := by
  obtain ⟨scope, hscope, hspell⟩ := h.exists_scopeOf order
  rw [scopeOf_append hscope, List.foldlM_cons, hrow.addTo_eq hspell h]
  rfl

/-- Rows are sound, or one of them is the first that is faulty. -/
theorem sound_or_faulty (rows : List Row) : Sound rows
    ∨ ∃ above row below e, rows = above ++ row :: below ∧ Sound above
      ∧ row.Faulty (keys above) e := by
  induction rows using List.reverseRecOn with
  | nil =>
      left
      refine ⟨fun row hrow => ?_, List.nodup_nil⟩
      cases hrow
  | append_singleton rows row ih =>
      rcases ih with hsound | ⟨above, row', below, e, rfl, hsound, hfaulty⟩
      · rcases cases_row (keys rows) row with hvoid | hbinds | ⟨e, hfaulty⟩
        · exact .inl (hsound.snoc (.inl hvoid))
        · exact .inl (hsound.snoc (.inr hbinds))
        · exact .inr ⟨rows, row, [], e, rfl, hsound, hfaulty⟩
      · exact .inr ⟨above, row', below ++ [row], e, by simp, hsound, hfaulty⟩

theorem scopeOf_eq_error_iff {e : RowFault} : scopeOf rows order = .error e
    ↔ ∃ above row below, rows = above ++ row :: below ∧ Sound above
      ∧ row.Faulty (keys above) e := by
  constructor
  · intro h
    rcases sound_or_faulty rows with hsound | ⟨above, row, below, e', rfl, hsound, hfaulty⟩
    · obtain ⟨scope, hscope, -⟩ := hsound.exists_scopeOf order
      rw [hscope] at h
      cases h
    · rw [hsound.scopeOf_faulty hfaulty] at h
      cases h
      exact ⟨above, row, below, rfl, hsound, hfaulty⟩
  · rintro ⟨above, row, below, rfl, hsound, hfaulty⟩
    exact hsound.scopeOf_faulty hfaulty below

theorem sound_of_scopeOf (h : scopeOf rows order = .ok scope) : Sound rows := by
  rcases sound_or_faulty rows with hsound | ⟨above, row, below, e, rfl, hsound, hfaulty⟩
  · exact hsound
  · rw [hsound.scopeOf_faulty hfaulty] at h
    cases h

theorem spell_of_scopeOf (h : scopeOf rows order = .ok scope) : Spell rows scope := by
  obtain ⟨scope', hscope, hspell⟩ := (sound_of_scopeOf h).exists_scopeOf order
  rw [hscope] at h
  cases h
  exact hspell

theorem order_of_scopeOf (h : scopeOf rows order = .ok scope) : scope.order = order := by
  rw [scopeOf_eq_map] at h
  cases hrows : scopeOf rows with
  | error e => rw [hrows] at h; cases h
  | ok p => rw [hrows] at h; cases h; rfl

/-! ## The order of the rows does not matter -/

theorem Sound.perm (h : Sound rows) {rows' : List Row} (hperm : rows.Perm rows') : Sound rows' where
  bind row hrow := h.bind row (hperm.mem_iff.mpr hrow)
  distinct := ((hperm.filter _).map _).nodup_iff.mp h.distinct

/-- The order in which the scope is gone through is another matter. -/
theorem scopeOf_perm (h : scopeOf rows order = .ok scope) {rows' : List Row}
    (hperm : rows.Perm rows') (order' : Scope.Order) :
    scopeOf rows' order' = .ok (scope.inOrder order') := by
  obtain ⟨scope', hscope, hspell⟩ := ((sound_of_scopeOf h).perm hperm).exists_scopeOf order'
  have hsame : scope' = scope.inOrder order' := by
    refine Scope.ext (fun x => Option.ext fun v => ?_) (order_of_scopeOf hscope)
    rw [hspell x v, Scope.find?_inOrder, spell_of_scopeOf h x v]
    simp only [hperm.mem_iff]
  rw [hscope, hsame]

/-! ## Names are names -/

theorem isName_iff {n : String} : isName n = true ↔ Token.IsName n ∧ n ≠ "π" := by
  constructor
  · intro h
    refine ⟨Token.isName_of_chars h, ?_⟩
    rintro rfl
    exact absurd h (by decide)
  · rintro ⟨rfl | ⟨c, cs, rfl, hc, hcs⟩, hpi⟩
    · exact absurd rfl hpi
    · rw [isName, String.toList_ofList]
      exact Bool.and_eq_true_iff.mpr ⟨hc, List.all_eq_true.mpr hcs⟩

/-- The sign for pi is the one name of the lexer that is no name of a variable. -/
theorem isName_iff_scan {n : String} :
    isName n = true ↔ Token.scan n = .ok [.ident n] ∧ n ≠ "π" := by
  rw [isName_iff]
  refine and_congr_left fun hpi => ⟨fun h => ?_, fun h => ?_⟩
  · have hscan := (Token.cuts_name h).scan
    rcases h with rfl | ⟨c, cs, rfl, hc, hcs⟩
    · exact absurd rfl hpi
    have hparts : ∀ d ∈ c :: cs, Token.isNamePart d = true := by
      intro d hd
      rcases List.mem_cons.mp hd with rfl | hd
      · exact Token.isNamePart_of_isNameStart hc
      · exact hcs d hd
    have hcompact : Text.compact (String.ofList (c :: cs)) = String.ofList (c :: cs) := by
      rw [← String.toList_inj, Token.compact_of_isNamePart hparts, String.toList_ofList]
    rwa [hcompact] at hscan
  · exact Token.lexed_of_scanFrom (by simp) h _ (.head _)

/-- A name that a scope binds, and that is no function's, has its number for its value. -/
theorem evaluate_name {n : String} (hn : isName n = true) (hfree : Builtin.ofName? n = none)
    (hfinite : scope.IsFinite) (hv : scope.find? n = some v) : evaluate n scope = .ok v := by
  obtain ⟨q, htokens, htree⟩ := (Phrase.name n hfree).exists_sum
  have hcuts := (Token.cuts_name (isName_iff.mp hn).1).scan
  have hvalue : scope.value? n = some v := by
    rw [Scope.value?, hv]
  have hscan : Token.scan (Text.compact n) = .ok q.tokens := by
    rw [hcuts, htokens, Phrase.tokens]
  refine evaluate_eq_ok_iff.mpr ⟨Scope.checkFinite_eq_ok_iff.mpr hfinite, _,
    Parsed.ofText_eq hscan, ?_, ?_⟩
  · change (q.tree.settle scope).eval = _
    rw [htree, Phrase.tree, Expr.settle_var, hvalue, Option.elim, Expr.eval]
  · exact scope.isFinite_of_find? (Scope.checkFinite_eq_ok_iff.mpr hfinite) hv

theorem isNamePart_of_isName {n : String} (h : isName n = true) :
    ∀ c ∈ n.toList, Token.isNamePart c = true := by
  unfold isName at h
  split at h
  · cases h
  · rename_i c cs hn
    rw [Bool.and_eq_true, List.all_eq_true] at h
    rw [hn]
    exact List.forall_mem_cons.mpr ⟨Token.isNamePart_of_isNameStart h.1, h.2⟩

/-- The names of a scope that rows spell are names. -/
theorem isName_of_mem_bindings (h : scopeOf rows order = .ok scope) {b : String × Float}
    (hb : b ∈ scope.bindings) : isName b.1 = true := by
  obtain ⟨row, -, hbinds⟩ := (spell_of_scopeOf h b.1 b.2).mp (Scope.find?_eq_some_iff.mpr hb)
  exact hbinds.named

/-- **What rows spell.** Rows are read exactly if they are sound; then the scope binds what they
bind and nothing else, in whatever order they stand. Otherwise the first faulty row is reported. The
names are those of the lexer but for the sign of pi, and in a finite scope a name that is no
function's has its number for its value. The order in which the scope is gone through, which may be
another one for other rows, makes no difference to any of this. -/
theorem scopeOf_exact (rows : List Row) (order : Scope.Order) :
    ((∃ p, scopeOf rows order = .ok p) ↔ Sound rows)
    ∧ (∀ p, scopeOf rows order = .ok p →
      (∀ x v, p.find? x = some v ↔ ∃ row ∈ rows, row.Binds x v)
      ∧ ∀ rows', rows.Perm rows' → ∀ order', scopeOf rows' order' = .ok (p.inOrder order'))
    ∧ (∀ e, scopeOf rows order = .error e ↔ ∃ above row below, rows = above ++ row :: below
      ∧ Sound above ∧ row.Faulty (keys above) e)
    ∧ (∀ n, isName n = true ↔ Token.scan n = .ok [.ident n] ∧ n ≠ "π")
    ∧ ∀ p, scopeOf rows order = .ok p → p.IsFinite → ∀ n v, p.find? n = some v →
      Builtin.ofName? n = none → evaluate n p = .ok v := by
  refine ⟨⟨fun ⟨p, hp⟩ => sound_of_scopeOf hp, fun h => ?_⟩, fun p hp => ?_,
    fun e => scopeOf_eq_error_iff, fun n => isName_iff_scan, fun p hp hfinite n v hv hfree => ?_⟩
  · obtain ⟨p, hp, -⟩ := h.exists_scopeOf order
    exact ⟨p, hp⟩
  · exact ⟨spell_of_scopeOf hp, fun rows' => scopeOf_perm hp⟩
  · obtain ⟨row, -, hbinds⟩ := (spell_of_scopeOf hp n v).mp hv
    exact evaluate_name hbinds.named hfree hfinite hv

/-- Two rows that bind names, in one order and the other, with a row between them that does not
count; and a row whose name is taken, but whose value is looked at before. -/
theorem scopeOf_exact_of_fields :
    let rows : List Row := [⟨" a ", "5"⟩, ⟨"\t", ""⟩, ⟨"sin", " -2"⟩]
    let again : List Row := [⟨"a", "1"⟩, ⟨"", " "⟩, ⟨"a ", "deux"⟩, ⟨"2a", "1"⟩]
    Sound rows ∧ rows.Perm rows.reverse
    ∧ (∃ p, scopeOf rows = .ok p ∧ scopeOf rows.reverse = .ok p
      ∧ p.IsFinite ∧ p.find? "a" = some 5 ∧ (∃ row ∈ rows, row.Binds "a" 5)
      ∧ Builtin.ofName? "a" = none ∧ evaluate "a" p = .ok 5)
    ∧ scopeOf again = .error (.badValue "a" "deux")
    ∧ isName "a" = true ∧ Token.scan "a" = .ok [.ident "a"] := by
  intro rows again
  have hsound : Sound rows := by decide +kernel
  have hperm : rows.Perm rows.reverse := (List.reverse_perm rows).symm
  have hname : isName "a" = true := by decide
  have hfree : Builtin.ofName? "a" = none := by decide
  obtain ⟨p, hp, hbindings⟩ := exists_ok_of_any (x := scopeOf rows)
    (p := fun p => decide (p.bindings = [("a", 5), ("sin", -2)])) (by decide +kernel)
  have hbindings := of_decide_eq_true hbindings
  have hfinite : p.IsFinite := by
    rw [Scope.IsFinite, hbindings]
    decide +kernel
  have ha : p.find? "a" = some 5 := by
    rw [Scope.find?, hbindings]
    decide +kernel
  obtain ⟨hread, hspell, -, hnames, hvalue⟩ := scopeOf_exact rows .byName
  have hreverse : scopeOf rows.reverse = .ok p := by
    rw [(hspell p hp).2 _ hperm .byName, Scope.inOrder, ← order_of_scopeOf hp]
  have hfaulty : Faulty (keys (again.take 2)) ⟨"a ", "deux"⟩ (.badValue "a" "deux") :=
    .badValue (by decide) (by decide +kernel)
  have hagain : scopeOf again = .error (.badValue "a" "deux") :=
    ((scopeOf_exact again .byName).2.2.1 _).mpr
      ⟨again.take 2, ⟨"a ", "deux"⟩, again.drop 3, rfl, by decide +kernel, hfaulty⟩
  exact ⟨hread.mp ⟨p, hp⟩, hperm, ⟨p, hp, hreverse, hfinite, ha, ((hspell p hp).1 "a" 5).mp ha,
    hfree, hvalue p hp hfinite "a" 5 ha hfree⟩, hagain, hname, ((hnames "a").mp hname).1⟩

end Row

end Reckon
