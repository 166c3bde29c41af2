import Reckon.Proofs.Display.Context
import Reckon.Proofs.Simple.Balance

/-!
# The parentheses of a displayed tree

A pair of matching parentheses in a text is either the argument list of a call or a `Group`. The
printer writes a group around a part of a tree that is looser than its place asks for, and nowhere
else: whatever group is found in the text of a tree, a `Context` of the tree stands around it and
the part of the tree that is plugged in there stands in it (`located`).

The proof takes a text apart as the printer put it together. What makes this possible is that the
pieces have matching parentheses themselves, so no pair is spread over two of them
(`Group.append_cases`).
-/

namespace Reckon

open DyckStep

/-! ## Front and back parts of Dyck words -/

theorem IsDyck.count_eq {steps : List DyckStep} (h : IsDyck steps) :
    steps.count U = steps.count D := by
  have := (descends_zero_iff.mpr h).ends
  omega

theorem IsDyck.count_front {front back : List DyckStep} (h : IsDyck (front ++ back)) :
    front.count D ≤ front.count U := by
  have := (descends_zero_iff.mpr h).above front.length
  rw [List.take_left] at this
  omega

theorem IsDyck.count_back {front back : List DyckStep} (h : IsDyck (front ++ back)) :
    back.count U ≤ back.count D := by
  have hfront := h.count_front
  have hall := h.count_eq
  rw [List.count_append, List.count_append] at hall
  omega

/-- The step up is not taken back at the end, if what follows it would have to go on to do so. -/
theorem IsDyck.not_left_open {front back more : List DyckStep} (h : IsDyck (front ++ U :: back))
    (hback : IsDyck (back ++ more)) : False := by
  have hup := h.count_back
  have hdown := hback.count_front
  rw [List.count_cons_self, List.count_cons_of_ne (by decide)] at hup
  omega

/-- There is no step down after a Dyck word. -/
theorem IsDyck.not_below {front back : List DyckStep} (h : IsDyck (front ++ D :: back))
    (hfront : IsDyck front) : False := by
  rw [List.append_cons] at h
  have hdown := h.count_front
  have heq := hfront.count_eq
  rw [List.count_append, List.count_append] at hdown
  simp at hdown
  omega

/-! ## Groups in a text -/

namespace Text

/-- A pair of matching parentheses in a text that is not the argument list of a call, by what stands
before, inside and after it. -/
structure Group (cs before inside after : List Char) : Prop where
  split : cs = before ++ '(' :: (inside ++ ')' :: after)
  matched : IsDyck (steps inside)
  uncalled : ∀ f : Builtin, ¬ f.name.toList <:+ before

variable {cs xs ys before inside after : List Char}

theorem Group.not_plain (g : Group cs before inside after) : steps cs ≠ [] := by
  rw [g.split, steps_append, steps_cons]
  simp [step?]

/-- A group lies in one of two pieces if the parentheses of the first match. -/
theorem Group.append_cases (h : IsDyck (steps xs)) (g : Group (xs ++ ys) before inside after) :
    (∃ after', Group xs before inside after' ∧ after = after' ++ ys)
    ∨ ∃ before', Group ys before' inside after ∧ before = xs ++ before' := by
  obtain ⟨hsplit, hmatched, huncalled⟩ := g
  have hright : ∀ before', before = xs ++ before' →
      ys = before' ++ '(' :: (inside ++ ')' :: after) →
      ∃ before', Group ys before' inside after ∧ before = xs ++ before' :=
    fun before' hbefore hys => ⟨before', ⟨hys, hmatched, fun f hf =>
      huncalled f (hf.trans (hbefore ▸ List.suffix_append xs before'))⟩, hbefore⟩
  rcases List.append_eq_append_iff.mp hsplit with ⟨before', hbefore, hys⟩ | ⟨tail, hxs, hpair⟩
  · exact .inr (hright before' hbefore hys)
  · cases tail with
    | nil => exact .inr (hright [] (by simpa using hxs.symm) (by simpa using hpair.symm))
    | cons c tail =>
        obtain ⟨hc, htail⟩ := List.cons.inj hpair
        rw [hxs, ← hc, steps_append] at h
        -- the parenthesis opens in the first piece, so it has to close there
        have hcloses : ∀ more, inside ≠ tail ++ more := by
          rintro more rfl
          rw [steps_append] at hmatched
          exact h.not_left_open hmatched
        rcases List.append_eq_append_iff.mp htail with ⟨closed, hin, hafter⟩ | ⟨more, hin, -⟩
        · cases closed with
          | nil => exact absurd (by simpa using hin.symm) (hcloses [])
          | cons d after' =>
              obtain ⟨hd, hafter⟩ := List.cons.inj hafter
              exact .inl ⟨after', ⟨by rw [hxs, hin, ← hc, ← hd], hmatched, huncalled⟩, hafter⟩
        · exact absurd hin (hcloses more)

/-- There is nothing to find in a piece without parentheses. -/
theorem Group.behind (h : steps xs = []) (g : Group (xs ++ ys) before inside after) :
    ∃ before', Group ys before' inside after ∧ before = xs ++ before' := by
  rcases g.append_cases (h ▸ isDyck_nil) with ⟨after', g, -⟩ | hys
  · exact absurd h g.not_plain
  · exact hys

/-- A group in a text between parentheses is the text itself or lies in it. -/
theorem Group.enclosed_cases (h : IsDyck (steps xs))
    (g : Group ('(' :: (xs ++ [')'])) before inside after) :
    (before = [] ∧ inside = xs ∧ after = [])
    ∨ ∃ before' after', Group xs before' inside after' ∧ before = '(' :: before'
      ∧ after = after' ++ [')'] := by
  obtain ⟨hsplit, hmatched, huncalled⟩ := g
  cases before with
  | nil =>
      left
      obtain ⟨-, hrest⟩ := List.cons.inj hsplit
      rcases List.append_eq_append_iff.mp hrest with ⟨more, hin, hafter⟩ | ⟨closed, hxs, hafter⟩
      · cases more with
        | nil => simpa [hin] using hafter
        | cons d more => simp at hafter
      · cases closed with
        | nil => simpa [hxs] using hafter
        | cons d closed =>
            -- the parenthesis would close in the text, and lead below the ground there
            obtain ⟨hd, -⟩ := List.cons.inj hafter
            rw [hxs, ← hd, steps_append] at h
            exact (h.not_below hmatched).elim
  | cons c before =>
      right
      obtain ⟨hc, hrest⟩ := List.cons.inj hsplit
      have g : Group (xs ++ [')']) before inside after :=
        ⟨hrest, hmatched, fun f hf => huncalled f (hf.trans (List.suffix_cons c before))⟩
      rcases g.append_cases h with ⟨after', g, hafter⟩ | ⟨before', g, -⟩
      · exact ⟨before, after', g, by rw [hc], hafter⟩
      · have := congrArg List.length g.split
        simp at this
        omega

end Text

/-! ## The parentheses of the printed pieces -/

theorem Text.steps_compact (s : String) : steps (compact s).toList = steps s.toList := by
  rw [toList_compact, steps, steps, List.filterMap_filter]
  refine List.filterMap_congr fun c _ => ?_
  by_cases hc : isBlank c = true
  · rw [hc, step?_eq_none (p := isBlank) rfl rfl hc]
    rfl
  · rw [Bool.not_eq_true] at hc
    rw [hc]
    rfl

/-- What is cut into tokens has their parentheses. -/
theorem Token.Cuts.steps {s : String} {ts : List Token} (h : Token.Cuts s ts) :
    Text.steps s.toList = Token.steps ts := by
  rw [Token.steps_scan h.scan, Text.steps_compact]

namespace Expr

theorem isDyck_textAt {e : Expr} (h : e.Readable IsPlain) (outer : Nat) :
    IsDyck (Text.steps (e.textAt outer).toList) := by
  obtain ⟨q, hq, -⟩ := exists_displayed h outer (k := .sum) (.inl rfl)
  rw [(Token.cuts_textAt (h.mono fun v hv => .inl hv.1) outer).steps, ← hq]
  exact q.isDyck

theorem steps_name {x : String} (h : Token.IsName x) : Text.steps x.toList = [] := by
  rw [(Token.cuts_name h).steps]
  rfl

theorem steps_number {v : Float} (h : v.isFinite = true) :
    Text.steps (Number.text v).toList = [] := by
  rw [(Token.cuts_text (.inl h)).steps, Token.ofNumber, if_pos h]
  split <;> rfl

theorem steps_spaced (op : BinOp) : Text.steps (spaced op).toList = [] := by
  cases op <;> decide

/-! ## Places in parentheses -/

/-- The text of the context is what stands around the parentheses, and the tree that is plugged in
stands in them, because it is looser than the open place asks for. -/
structure Context.Encloses (C : Context) (outer : Nat) (c : Expr)
    (before inside after : List Char) : Prop where
  loose : c.tightness < C.least outer
  around : ∀ w, (C.text outer w).toList = before ++ w.toList ++ after
  inside : (c.textAt 0).toList = inside

/-- A context of which another one is the inner part: its text has some more in front and behind. -/
theorem Context.Encloses.widen {C C' : Context} {outer outer' : Nat} {c : Expr}
    {before inside after front back before' after' : List Char}
    (h : C.Encloses outer c before inside after) (hleast : C'.least outer' = C.least outer)
    (htext : ∀ w, (C'.text outer' w).toList = front ++ ((C.text outer w).toList ++ back))
    (hbefore : before' = front ++ before) (hafter : after' = after ++ back) :
    C'.Encloses outer' c before' inside after' where
  loose := hleast ▸ h.loose
  around w := by rw [htext, h.around, hbefore, hafter]; simp
  inside := h.inside

/-- A group in the text of a tree is around a part of the tree. -/
def Locates (outer : Nat) (e : Expr) (before inside after : List Char) : Prop :=
  ∃ C c, Context.plug c C = e ∧ C.Encloses outer c before inside after

/-- Every group in the text of a tree is around a part of it, wherever the tree stands. -/
def Located (e : Expr) : Prop :=
  ∀ (outer : Nat) (before inside after : List Char),
    Text.Group (e.textAt outer).toList before inside after → Locates outer e before inside after

theorem toList_enclose_true (s : String) :
    (enclose true s).toList = '(' :: (s.toList ++ [')']) := by
  rw [enclose, if_pos rfl, String.toList_append, String.toList_append]
  rfl

theorem Context.text_eq_enclose {C : Context} (h : C ≠ .hole) (c : Expr) (outer : Nat)
    (w : String) : C.text outer w = enclose ((C.plug c).tightness < outer) (C.text 0 w) := by
  cases C with
  | hole => exact absurd rfl h
  | _ => rfl

theorem Context.least_eq {C : Context} (h : C ≠ .hole) (outer : Nat) :
    C.least outer = C.least 0 := by
  cases C with
  | hole => exact absurd rfl h
  | _ => rfl

/-- It is enough to look at the text of a tree without parentheses around it. -/
theorem located_of_bare {e : Expr} (he : e.Readable IsPlain)
    (h : ∀ before inside after, Text.Group (e.textAt 0).toList before inside after →
      Locates 0 e before inside after) : e.Located := by
  intro outer before inside after g
  rw [textAt_eq_enclose] at g
  -- a place that asks for nothing has no parentheses around it, so the group is further in
  have hdeeper : ∀ {before after : List Char} {C : Context} {c : Expr},
      C.Encloses 0 c before inside after → C ≠ .hole := by
    rintro _ _ _ c henc rfl
    exact Nat.not_lt_zero _ henc.loose
  cases hneeded : decide (e.tightness < outer) with
  | false =>
      rw [hneeded, enclose_false] at g
      obtain ⟨C, c, rfl, henc⟩ := h _ _ _ g
      have htext : ∀ w, (C.text outer w).toList = [] ++ ((C.text 0 w).toList ++ []) := fun w => by
        rw [Context.text_eq_enclose (hdeeper henc) c, hneeded, enclose_false]
        simp
      have hleast := Context.least_eq (hdeeper henc) outer
      exact ⟨C, c, rfl, henc.widen hleast htext (by simp) (by simp)⟩
  | true =>
      rw [hneeded, toList_enclose_true] at g
      rcases g.enclosed_cases (isDyck_textAt he 0) with
        ⟨rfl, rfl, rfl⟩ | ⟨before', after', hin, rfl, rfl⟩
      · exact ⟨.hole, e, rfl, of_decide_eq_true hneeded, fun w => by simp [Context.text], rfl⟩
      · obtain ⟨C, c, rfl, henc⟩ := h _ _ _ hin
        have htext : ∀ w, (C.text outer w).toList = ['('] ++ ((C.text 0 w).toList ++ [')']) :=
          fun w => by
            rw [Context.text_eq_enclose (hdeeper henc) c, hneeded, toList_enclose_true]
            rfl
        exact ⟨C, c, rfl, henc.widen (Context.least_eq (hdeeper henc) outer) htext rfl rfl⟩

theorem located_neg {e : Expr} (h : (neg e).Readable IsPlain) (he : e.Located) :
    (neg e).Located := by
  refine located_of_bare h fun before inside after g => ?_
  have htext : ∀ s : String, ("-" ++ s).toList = ['-'] ++ (s.toList ++ []) := fun s => by simp
  rw [show (neg e).textAt 0 = "-" ++ e.textAt signedTightness from rfl, htext, List.append_nil] at g
  obtain ⟨before', hin, rfl⟩ := g.behind rfl
  obtain ⟨C, c, rfl, henc⟩ := he _ _ _ _ hin
  exact ⟨.neg C, c, rfl, henc.widen rfl (fun w => htext _) rfl (by simp)⟩

theorem located_bin {op : BinOp} {a b : Expr} (h : (bin op a b).Readable IsPlain)
    (ha : a.Located) (hb : b.Located) : (bin op a b).Located := by
  refine located_of_bare h fun before inside after g => ?_
  have hdyck : IsDyck (Text.steps (a.textAt (leftTightness op)).toList) := by
    cases h with
    | bin hra hrb => exact isDyck_textAt hra _
  have htext : ∀ s t : String, (s ++ spaced op ++ t).toList
      = s.toList ++ ((spaced op).toList ++ t.toList) := fun s t => by simp
  rw [show (bin op a b).textAt 0
    = a.textAt (leftTightness op) ++ spaced op ++ b.textAt (rightTightness op) from rfl, htext] at g
  rcases g.append_cases hdyck with ⟨after', hin, rfl⟩ | ⟨before', g', rfl⟩
  · obtain ⟨C, c, rfl, henc⟩ := ha _ _ _ _ hin
    have hleft : ∀ w, ((Context.left op C b).text 0 w).toList
        = [] ++ ((C.text (leftTightness op) w).toList
          ++ ((spaced op).toList ++ (b.textAt (rightTightness op)).toList)) := fun w => htext _ _
    exact ⟨.left op C b, c, rfl, henc.widen rfl hleft rfl rfl⟩
  · obtain ⟨before'', hin, rfl⟩ := g'.behind (steps_spaced op)
    obtain ⟨C, c, rfl, henc⟩ := hb _ _ _ _ hin
    have hright : ∀ w, ((Context.right op a C).text 0 w).toList
        = ((a.textAt (leftTightness op)).toList ++ (spaced op).toList)
          ++ ((C.text (rightTightness op) w).toList ++ []) := fun w => by
      rw [List.append_nil, List.append_assoc, ← htext]
      rfl
    exact ⟨.right op a C, c, rfl, henc.widen rfl hright (by simp) (by simp)⟩

/-- Among some arguments a group is in one of them. -/
theorem locates_argument {args : List Expr} (hread : ∀ a ∈ args, a.Readable IsPlain)
    (h : ∀ a ∈ args, a.Located) {separator : String} (hs : Text.steps separator.toList = [])
    {before inside after : List Char}
    (g : Text.Group (textOfAll separator args).toList before inside after) :
    ∃ front C c rest before' after', args = front ++ Context.plug c C :: rest
      ∧ C.Encloses 0 c before' inside after'
      ∧ before = (textOfAll separator front).toList ++ (gap separator ", " front).toList ++ before'
      ∧ after = after' ++ (textOfAll ", " rest).toList := by
  induction args generalizing separator before with
  | nil => exact absurd rfl g.not_plain
  | cons a args ih =>
      rw [textOfAll, String.append_assoc, String.toList_append, String.toList_append] at g
      obtain ⟨before₁, g₁, rfl⟩ := g.behind hs
      -- the group is in the first argument or behind it, since the parentheses of that one match
      rcases g₁.append_cases (isDyck_textAt (hread a (.head _)) 0) with
        ⟨after', hin, rfl⟩ | ⟨before₂, g₂, rfl⟩
      · obtain ⟨C, c, rfl, henc⟩ := h _ (.head _) _ _ _ _ hin
        exact ⟨[], C, c, args, _, after', rfl, henc, by simp [textOfAll, gap], rfl⟩
      · obtain ⟨front, C, c, rest, before', after', rfl, henc, rfl, rfl⟩ :=
          ih (fun b hb => hread b (.tail _ hb)) (fun b hb => h b (.tail _ hb)) (by decide) g₂
        refine ⟨a :: front, C, c, rest, before', after', rfl, henc, ?_, rfl⟩
        cases front <;> simp [textOfAll, gap]

theorem isDyck_textOfAll {args : List Expr} (h : ∀ a ∈ args, a.Readable IsPlain)
    {separator : String} (hs : Text.steps separator.toList = []) :
    IsDyck (Text.steps (textOfAll separator args).toList) := by
  induction args generalizing separator with
  | nil => exact isDyck_nil
  | cons a args ih =>
      rw [textOfAll, String.append_assoc, String.toList_append, String.toList_append,
        Text.steps_append, Text.steps_append, hs]
      exact (isDyck_textAt (h a (.head _)) 0).append
        (ih (fun b hb => h b (.tail _ hb)) (by decide))

theorem located_call {f : Builtin} {args : List Expr} (accepted : f.arity.accepts args.length)
    (hread : ∀ a ∈ args, a.Readable IsPlain) (h : ∀ a ∈ args, a.Located) :
    (call f args).Located := by
  refine located_of_bare (.call accepted hread) fun before inside after g => ?_
  have htext : ∀ s : String, (f.name ++ "(" ++ s ++ ")").toList
      = f.name.toList ++ '(' :: (s.toList ++ [')']) := fun s => by simp
  rw [show (call f args).textAt 0 = f.name ++ "(" ++ textOfAll "" args ++ ")" from rfl, htext] at g
  obtain ⟨before', g', rfl⟩ := g.behind (steps_name (Token.isName_name f))
  rcases g'.enclosed_cases (isDyck_textOfAll hread rfl) with
    ⟨rfl, -, -⟩ | ⟨before'', after', hin, rfl, rfl⟩
  · -- these are the parentheses of the call
    exact absurd (List.append_nil _ ▸ List.suffix_rfl) (g.uncalled f)
  · obtain ⟨front, C, c, rest, before', after', rfl, henc, rfl, rfl⟩ :=
      locates_argument hread h rfl hin
    have hcall : ∀ w, ((Context.argument f front C rest).text 0 w).toList
        = (f.name.toList ++ '(' :: ((textOfAll "" front).toList ++ (gap "" ", " front).toList))
          ++ ((C.text 0 w).toList ++ ((textOfAll ", " rest).toList ++ [')'])) := fun w => by
      refine (htext _).trans ?_
      simp
    exact ⟨.argument f front C rest, c, rfl, henc.widen rfl hcall (by simp) (by simp)⟩

/-- **Every group in the text of a tree is around a part of the tree** that is looser than its place
asks for. -/
theorem located {e : Expr} (h : e.Readable IsPlain) : e.Located := by
  induction h with
  | @num v hv =>
      refine located_of_bare (.num hv) fun before inside after g => ?_
      exact absurd (steps_number hv.1) g.not_plain
  | var spelled free =>
      refine located_of_bare (.var spelled free) fun before inside after g => ?_
      exact absurd (steps_name spelled) g.not_plain
  | neg he ih => exact located_neg (.neg he) ih
  | bin ha hb iha ihb => exact located_bin (.bin ha hb) iha ihb
  | call accepted hargs ih => exact located_call accepted hargs ih

end Expr

end Reckon
