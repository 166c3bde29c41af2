import Reckon.Proofs.Display.Bound
import Reckon.Window

/-!
# What is shown is never empty

An empty text is how the window says that there is nothing to show, so whatever there is to show
must have a text that is not empty: every number, every stage of an analysis, and every fault.
-/

namespace Reckon

/-- A row of texts is empty only if all of them are. -/
theorem intercalate_ne_empty {separator s : String} {l : List String} (hs : s ∈ l) (hne : s ≠ "") :
    separator.intercalate l ≠ "" := by
  induction l with
  | nil => cases hs
  | cons a l ih =>
      cases l with
      | nil =>
          obtain rfl := List.mem_singleton.mp hs
          simpa using hne
      | cons b l =>
          rw [String.intercalate_cons_cons]
          rcases List.mem_cons.mp hs with rfl | hs
          · simp [hne]
          · simp [ih hs]

/-! ## Numbers and names -/

namespace Number

theorem Decimal.chars_ne_nil (d : Decimal) : d.chars ≠ [] := by
  have := d.spelled_fst_ne_nil
  unfold chars
  dsimp only
  split <;> simp [this]

theorem text_ne_empty {α : Type} [Binary α] (v : α) : text v ≠ "" := by
  unfold text
  dsimp only
  split
  · decide
  · have hdigits : ∀ d : Decimal, String.ofList d.chars ≠ "" := fun d h =>
      d.chars_ne_nil (String.ofList_eq_empty_iff.mp h)
    split <;> split <;> simp [hdigits]

end Number

theorem Token.IsName.ne_empty {x : String} (h : IsName x) : x ≠ "" := by
  rcases h with rfl | ⟨c, cs, rfl, -, -⟩
  · decide
  · exact fun h => List.cons_ne_nil c cs (String.ofList_eq_empty_iff.mp h)

/-! ## The stages of an analysis -/

theorem Token.text_ne_empty {literal : Float → Prop} {t : Token} (h : t.Lexed literal) :
    t.text ≠ "" := by
  cases t with
  | num v => exact Number.text_ne_empty v
  | ident x => exact IsName.ne_empty h
  | op op => cases op <;> decide
  | _ => decide

theorem Parsed.line_tokens_ne_empty {s : String} {p : Parsed} (h : Parsed.ofText s = .ok p) :
    Token.line p.tokens ≠ "" := by
  obtain ⟨hscan, q, hq, -, -⟩ := Parsed.stages h
  obtain ⟨t, ht⟩ := List.exists_mem_of_ne_nil _ (hq ▸ q.tokens_ne_nil)
  exact intercalate_ne_empty (List.mem_map_of_mem ht)
    (Token.text_ne_empty (Token.lexed_of_scanFrom (by simp) hscan t ht))

namespace Expr

variable {literal : Float → Prop} {e : Expr}

/-- The last item of a tree's listing is the node itself. -/
theorem Readable.exists_item (h : e.Readable literal) : ∃ i ∈ e.items, i.text ≠ "" := by
  cases h with
  | @num v hv => exact ⟨.num v, by simp [items], Number.text_ne_empty v⟩
  | @var x spelled free => exact ⟨.var x, by simp [items], spelled.ne_empty⟩
  | neg he => exact ⟨.op .neg, by simp [items], by decide⟩
  | @bin op a b ha hb => exact ⟨.op (.bin op), by simp [items], by cases op <;> decide⟩
  | @call f args accepted hargs =>
      exact ⟨.call f args.length, by simp [items], by simp [Item.text]⟩

theorem Readable.line_listing_ne_empty (h : e.Readable literal) : e.listing.line ≠ "" := by
  obtain ⟨i, hi, hne⟩ := h.exists_item
  rw [listing_eq_items]
  exact intercalate_ne_empty (List.mem_map_of_mem hi) hne

theorem enclose_ne_empty {needed : Bool} {s : String} (h : s ≠ "") : enclose needed s ≠ "" := by
  unfold enclose
  split
  · simp
  · exact h

theorem Readable.render_ne_empty (h : e.Readable literal) : e.render ≠ "" := by
  rw [render_eq_text, text]
  cases h with
  | @num v hv => rw [textAt]; exact enclose_ne_empty (Number.text_ne_empty v)
  | @var x spelled free => rw [textAt]; exact enclose_ne_empty spelled.ne_empty
  | neg he => rw [textAt]; exact enclose_ne_empty (by simp)
  | @bin op a b ha hb =>
      have hop : spaced op ≠ "" := by cases op <;> decide
      rw [textAt]
      exact enclose_ne_empty (by simp [hop])
  | @call f args accepted hargs => rw [textAt]; exact enclose_ne_empty (by simp)

end Expr

/-- All four stages have a text. -/
structure Working.IsFull (w : Working) : Prop where
  tokens : w.tokens ≠ ""
  listing : w.listing ≠ ""
  parsed : w.parsed ≠ ""
  bound : w.bound ≠ ""

/-- **Every stage of an analysis shows.** -/
theorem Working.isFull_ofAnalysis {text : String} {scope : Scope} {a : Analysis}
    (h : analyse text scope = .ok a) : (Working.ofAnalysis a).IsFull := by
  have hst := analyse_stages h
  have hparsed : a.parsed.Readable fun _ => True := Parsed.readable hst.read fun _ _ _ => trivial
  obtain ⟨-, q, -, htree, hlisting⟩ := Parsed.stages hst.read
  exact {
    tokens := Parsed.line_tokens_ne_empty hst.read
    listing := by
      dsimp only [Working.ofAnalysis] at hlisting ⊢
      rw [hlisting]
      exact hparsed.line_listing_ne_empty
    parsed := hparsed.render_ne_empty
    bound := (analyse_bound_readable h).render_ne_empty }

/-! ## Faults -/

theorem Fault.Kind.name_ne_empty (k : Kind) : k.name ≠ "" := by
  cases k <;> decide

theorem Fault.Kind.heading_ne_empty (k : Kind) : k.heading ≠ "" := by
  cases k <;> simp [heading]

theorem Fault.message_ne_empty (f : Fault) : f.message ≠ "" :=
  fun h => f.kind.heading_ne_empty (String.append_eq_empty_iff.mp h).1

/-- The first letters of the message for a row. They tell it from every other text of the window. -/
def RowFault.opening : RowFault → List Char
  | badName _ => "nom ".toList
  | badValue _ _ => "vale".toList
  | repeatedName _ => "vari".toList

theorem RowFault.take_message (f : RowFault) : f.message.toList.take 4 = f.opening := by
  cases f with
  | badName x =>
      change ("nom de variable invalide: " ++ _).toList.take 4 = _
      rw [String.toList_append]
      rfl
  | badValue x v =>
      change ("valeur invalide pour '" ++ _ ++ _ ++ _).toList.take 4 = _
      rw [String.append_assoc, String.append_assoc, String.toList_append]
      rfl
  | repeatedName x =>
      change ("variable '" ++ _ ++ _).toList.take 4 = _
      rw [String.append_assoc, String.toList_append]
      rfl

/-- A text that begins otherwise is not the message for a row. -/
theorem RowFault.message_ne {f : RowFault} {s : String} (h : s.toList.take 4 ≠ f.opening) :
    f.message ≠ s := by
  rintro rfl
  exact h f.take_message

theorem RowFault.message_ne_empty (f : RowFault) : f.message ≠ "" :=
  message_ne (by cases f <;> rintro ⟨⟩)

end Reckon
