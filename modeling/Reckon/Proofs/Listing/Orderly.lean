import Reckon.Proofs.Listing
import Reckon.Proofs.Listing.Yard

/-!
# Two stacks in step

A reader with two stacks and three marks goes wrong where they fall out of step: a parenthesis
without a frame, a function that is kept too long, an operator that is listed before its operands.
`Yard.Orderly` says that they never do, and `Yard.feed_orderly` that it holds after the tokens of
any front of any text, whatever becomes of the text behind.

What is listed so far can always be run. It is a row of complete trees (`Awaits.exists_trees`), one
for each left operand and each argument that is held for what waits and one for a value that has
just been read; so there are as many values as the two stacks and the mark of a value say.
-/

namespace Reckon

/-! ## The invariant -/

/-- Whether an operator waits that has a left operand already. -/
def Waiting.isBinary : Waiting → Bool
  | op (.bin _) => true
  | _ => false

/-- The arguments that are complete in some open parentheses: all that have begun but the last. -/
def Frame.completeOfAll : List Frame → Nat
  | [] => 0
  | frame :: frames => (frame.begun - 1) + completeOfAll frames

/-- The values that are held for what waits: the left operand of each binary operator, and the
arguments that are complete in each open call. -/
def Yard.held (waiting : List Waiting) (frames : List Frame) : Nat :=
  waiting.countP Waiting.isBinary + Frame.completeOfAll frames

/-- The values that are listed so far: those that are held, and the one that the last token ended,
if it did. -/
def Yard.height (y : Yard) : Nat :=
  held y.waiting y.frames + if y.afterValue then 1 else 0

/-- Whether a token ends a value, given the one after it: a name does unless it is called. -/
def Token.endsValue : Token → Option Token → Bool
  | .num _, _ => true
  | .ident _, next => next ≠ some .lpar
  | .rpar, _ => true
  | _, _ => false

/-- The parts of a state are in step with each other and with the tokens before and behind. -/
structure Yard.Orderly (y : Yard) (ts rest : List Token) : Prop where
  /-- There is a frame for each open parenthesis. -/
  framed : y.waiting.count .paren = y.frames.length
  /-- An open parenthesis has begun an argument. -/
  begun : ∀ frame ∈ y.frames, 1 ≤ frame.begun
  /-- A function is kept exactly between its name and its parenthesis. -/
  called : ∀ f, y.called = some f ↔ ts.getLast? = some (.ident f.name) ∧ rest.head? = some .lpar
  /-- No name stands before a parenthesis without being kept. -/
  calling : ∀ x, ts.getLast? = some (.ident x) → rest.head? = some .lpar → y.called.isSome = true
  /-- The mark of a value says that the last token ended one. -/
  marked : y.afterValue = ts.getLast?.any (·.endsValue rest.head?)
  /-- What is listed can be run, and leaves as many values as the two stacks and the mark say. -/
  height : ∃ stack, Listing.run Expr.nodes y.listed.reverse [] = .ok stack
    ∧ stack.length = y.height

/-! ## What is listed so far -/

theorem Expr.run_itemsOfAll_nodes (es : List Expr) :
    Listing.run nodes (itemsOfAll es) [] = .ok es.reverse := by
  have hitems : ∀ a ∈ es, ∀ k stack, Listing.run nodes (a.items ++ k) stack =
      (a.fold nodes).bind fun x => Listing.run nodes k (x :: stack) := fun a _ => a.run_items
  have hrun := run_itemsOfAll hitems [] []
  have hfold : foldAll nodes es = .ok es := by
    rw [foldAll_of_forall (g := id) (fun a _ => a.fold_nodes), List.map_id]
  rw [List.append_nil, hfold] at hrun
  rw [hrun]
  exact congrArg Except.ok (List.append_nil es.reverse)

/-- The values that are held for what is pending. -/
def Pending.held (pending : List Pending) : Nat :=
  Yard.held (pending.map Pending.waiting) (pending.filterMap Pending.frame?)

namespace Pending

theorem held_bin (op : BinOp) (pending : List Pending) :
    held (.op (.bin op) :: pending) = held pending + 1 := by
  rw [held, held, Yard.held, Yard.held, Reading.frames_op, List.map_cons,
    List.countP_cons_of_pos rfl]
  omega

theorem held_neg (pending : List Pending) : held (.op .neg :: pending) = held pending := by
  rw [held, held, Yard.held, Yard.held, Reading.frames_op, List.map_cons,
    List.countP_cons_of_neg Bool.false_ne_true]

theorem held_group (pending : List Pending) : held (.group :: pending) = held pending := by
  rw [held, held, Yard.held, Yard.held, Reading.frames_group, List.map_cons,
    List.countP_cons_of_neg Bool.false_ne_true, Frame.completeOfAll]
  dsimp only
  omega

theorem held_call (f : Builtin) (n : Nat) (pending : List Pending) :
    held (.call f n :: pending) = held pending + (n - 1) := by
  rw [held, held, Yard.held, Yard.held, Reading.frames_call, List.map_cons,
    List.countP_cons_of_neg Bool.false_ne_true, Frame.completeOfAll]
  dsimp only
  omega

end Pending

namespace Awaits

variable {k : Rank} {ts : List Token} {pending : List Pending} {listed : List Item}

/-- **What is listed is a row of trees**, one for each value that is held. -/
theorem exists_trees (h : Awaits k ts pending listed) :
    ∃ es : List Expr, listed.reverse = Expr.itemsOfAll es
      ∧ es.length = Pending.held pending := by
  induction h with
  | start => exact ⟨[], rfl, rfl⟩
  | group _ ih =>
      rw [Pending.held_group]
      exact ih
  | call f _ ih =>
      rw [Pending.held_call]
      exact ih
  | comma f args _ ih =>
      -- the arguments before the comma are complete
      obtain ⟨es, hes, hlen⟩ := ih
      refine ⟨es ++ args.trees, ?_, ?_⟩
      · rw [List.reverse_append, List.reverse_reverse, hes, Expr.itemsOfAll_append]
      · rw [List.length_append, hlen, args.length_trees, Pending.held_call, Nat.add_sub_cancel]
  | operand op a _ _ ih =>
      obtain ⟨es, hes, hlen⟩ := ih
      refine ⟨es ++ [a.tree], ?_, ?_⟩
      · rw [List.reverse_append, List.reverse_reverse, hes, Expr.itemsOfAll_append,
          Expr.itemsOfAll, Expr.itemsOfAll, List.append_nil]
      · rw [List.length_append, hlen, Pending.held_bin, List.length_singleton]
  | minus _ _ ih =>
      rw [Pending.held_neg]
      exact ih
  | plus _ _ ih => exact ih

/-- An open parenthesis has begun an argument. -/
theorem begun_pos (h : Awaits k ts pending listed) :
    ∀ frame ∈ pending.filterMap Pending.frame?, 1 ≤ frame.begun := by
  induction h with
  | start => exact nofun
  | group _ ih =>
      rw [Reading.frames_group]
      exact List.forall_mem_cons.mpr ⟨Nat.le_refl 1, ih⟩
  | call f _ ih =>
      rw [Reading.frames_call]
      exact List.forall_mem_cons.mpr ⟨Nat.le_refl 1, ih⟩
  | @comma k ts pending listed f n args _ ih =>
      rw [Reading.frames_call]
      exact List.forall_mem_cons.mpr ⟨Nat.le_add_left 1 n, ih⟩
  | operand op a _ _ ih => exact ih
  | minus _ _ ih => exact ih
  | plus _ _ ih => exact ih

end Awaits

namespace Reached

variable {ts rest : List Token} {r r' : Reading}

theorem exists_awaits (h : Reached ts rest r) :
    ∃ k ts' listed, Awaits k ts' r.pending listed := by
  cases h with
  | opening h _ => exact ⟨_, _, _, h⟩
  | sign h => exact ⟨_, _, _, h⟩
  | callee f h => exact ⟨_, _, _, h⟩
  | value a h => exact ⟨_, _, _, h⟩

/-- With the value that the last token ended, if it did, a row of trees again. -/
theorem exists_trees (h : Reached ts rest r) :
    ∃ es : List Expr, r.listed.reverse = Expr.itemsOfAll es ∧ es.length = r.split.height := by
  cases h with
  | opening h _ => exact h.exists_trees
  | sign h => exact h.exists_trees
  | callee f h => exact h.exists_trees
  | @value k ts rest pending listed a h =>
      obtain ⟨es, hes, hlen⟩ := h.exists_trees
      refine ⟨es ++ [a.tree], ?_, ?_⟩
      · rw [List.reverse_append, List.reverse_reverse, hes, Expr.itemsOfAll_append,
          Expr.itemsOfAll, Expr.itemsOfAll, List.append_nil]
      · rw [List.length_append, hlen]
        rfl

/-- **What is listed can be run**, to as many values as the state says. -/
theorem exists_run (h : Reached ts rest r) :
    ∃ stack, Listing.run Expr.nodes r.listed.reverse [] = .ok stack
      ∧ stack.length = r.split.height := by
  obtain ⟨es, hes, hlen⟩ := h.exists_trees
  refine ⟨es.reverse, ?_, ?_⟩
  · rw [hes, Expr.run_itemsOfAll_nodes]
  · rw [List.length_reverse, hlen]

/-- The invariant holds after the tokens of any front. -/
theorem feed {us : List Token} (h : Reached ts (us ++ rest) r)
    (hr : Token.feed Reading.read r us rest = .ok r') : Reached (ts ++ us) rest r' := by
  induction us generalizing ts r with
  | nil =>
      cases hr
      rwa [List.append_nil]
  | cons t us ih =>
      rw [Token.feed] at hr
      cases h₁ : r.read t (us ++ rest).head? with
      | error e =>
          rw [h₁] at hr
          cases hr
      | ok r₁ =>
          rw [h₁] at hr
          have hnext := ih (h.read h₁) hr
          rwa [List.append_assoc] at hnext

end Reached

/-- A call that has been made has found its arguments. -/
theorem Listing.exists_arguments {α : Type} {m : Meaning α} {l k : Listing} {f : Builtin} {n : Nat}
    {stack after : List α} (h : run m (l ++ .call f n :: k) stack = .ok after) :
    ∃ before, run m l stack = .ok before ∧ n ≤ before.length := by
  rw [run_append] at h
  cases hl : run m l stack with
  | error e =>
      rw [hl] at h
      cases h
  | ok before =>
      rw [hl] at h
      refine ⟨before, rfl, ?_⟩
      change run m (.call f n :: k) before = .ok after at h
      rw [run, step] at h
      cases htop : popArguments n [] before with
      | none =>
          rw [htop] at h
          cases h
      | some top =>
          obtain ⟨args, rest⟩ := top
          obtain ⟨top, rfl, -, rfl⟩ := eq_append_of_popArguments htop
          rw [List.length_append]
          exact Nat.le_add_right top.length rest.length

/-! ## What the last token says -/

theorem Token.exists_read_of_feed {σ : Type} {read : σ → Token → Option Token → Except Fault σ}
    {s s' : σ} {ts rest : List Token} {t : Token} (h : feed read s (ts ++ [t]) rest = .ok s') :
    ∃ before, read before t rest.head? = .ok s' := by
  rw [feed_append] at h
  cases hfront : feed read s ts ([t] ++ rest) with
  | error e =>
      rw [hfront] at h
      cases h
  | ok before =>
      rw [hfront] at h
      change (read before t rest.head?).bind (fun s => .ok s) = .ok s' at h
      cases hr : read before t rest.head? with
      | error e =>
          rw [hr] at h
          cases h
      | ok s'' =>
          rw [hr] at h
          exact ⟨before, hr.trans h⟩

theorem Builtin.name_injective : Function.Injective name := by
  intro f g h
  rw [← Option.some.injEq, ← ofName?_name f, ← ofName?_name g, h]

namespace Token.Leaves

variable {next : Option Token} {t : Token} {last : Last}

theorem value_eq (h : Leaves next t last) : decide (last = .value) = t.endsValue next := by
  cases h with
  | var hnext => exact (decide_eq_true hnext).symm
  | callee f hnext => rw [hnext]; rfl
  | _ => rfl

theorem called?_iff (h : Leaves next t last) (f : Builtin) :
    last.called? = some f ↔ t = .ident f.name ∧ next = some .lpar := by
  cases h with
  | var hnext => simp [Last.called?, hnext]
  | callee g hnext =>
      rw [Last.called?, Option.some.injEq, ident.injEq]
      exact ⟨fun hf => ⟨congrArg Builtin.name hf, hnext⟩, fun h => Builtin.name_injective h.1⟩
  | _ => simp [Last.called?]

/-- A name before a parenthesis is the name of a function. -/
theorem isSome_called? {x : String} (h : Leaves next (.ident x) last)
    (hnext : next = some .lpar) : last.called?.isSome = true := by
  cases h with
  | var hne => exact absurd hnext hne
  | callee f _ => rfl

end Token.Leaves

/-! ## Every front of a text -/

namespace Reading

variable {ts rest : List Token} {r : Reading}

/-- There is a frame for each open parenthesis. -/
theorem count_paren (pending : List Pending) :
    (pending.map Pending.waiting).count .paren = (pending.filterMap Pending.frame?).length := by
  induction pending with
  | nil => rfl
  | cons p pending ih =>
      cases p with
      | op o =>
          rw [frames_op, ← ih]
          exact List.count_cons_of_ne (by simp [Pending.waiting])
      | group =>
          rw [frames_group, List.length_cons, ← ih]
          exact List.count_cons_self
      | call f n =>
          rw [frames_call, List.length_cons, ← ih]
          exact List.count_cons_self

/-- **The parts of a state are in step** after the tokens of any front. -/
theorem orderly_split (h : Token.feed read start ts rest = .ok r) : r.split.Orderly ts rest := by
  have hreached : Reached ([] ++ ts) rest r := .feed (.opening .start (by decide)) h
  obtain ⟨k, ts', listed, hawaits⟩ := hreached.exists_awaits
  by_cases hts : ts = []
  · subst hts
    cases h
    exact ⟨count_paren _, hawaits.begun_pos, fun f => iff_of_false nofun nofun, nofun, rfl,
      hreached.exists_run⟩
  · obtain ⟨init, t, rfl⟩ : ∃ init t, ts = init ++ [t] :=
      ⟨_, _, (List.dropLast_concat_getLast hts).symm⟩
    obtain ⟨before, hread⟩ := Token.exists_read_of_feed h
    have hleaves := leaves_of_read hread
    refine ⟨count_paren _, hawaits.begun_pos, fun f => ?_, fun x hx hnext => ?_, ?_,
      hreached.exists_run⟩
    · rw [List.getLast?_concat, Option.some.injEq]
      exact hleaves.called?_iff f
    · rw [List.getLast?_concat, Option.some.injEq] at hx
      subst hx
      exact hleaves.isSome_called? hnext
    · rw [List.getLast?_concat]
      exact hleaves.value_eq

end Reading

namespace Yard

/-- Listing operators takes no parenthesis off the stack. -/
theorem count_paren_release (due : Operator → Bool) (waiting : List Waiting)
    (listed : List Item) : (release due waiting listed).1.count .paren = waiting.count .paren := by
  induction waiting generalizing listed with
  | nil => rfl
  | cons w waiting ih =>
      cases w with
      | paren => rfl
      | op o =>
          rw [release]
          by_cases hdue : due o = true
          · rw [if_pos hdue, ih]
            exact (List.count_cons_of_ne (by simp)).symm
          · rw [if_neg hdue]

theorem Orderly.frames_ne_nil {y : Yard} {ts rest : List Token} (h : y.Orderly ts rest)
    {waiting : List Waiting} {listed : List Item}
    (hrel : y.releaseAll = (.paren :: waiting, listed)) : y.frames ≠ [] := by
  have hcount := count_paren_release (fun _ => true) y.waiting y.listed
  rw [← releaseAll, hrel, h.framed, List.count_cons_self] at hcount
  intro hnil
  rw [hnil] at hcount
  cases hcount

end Yard

/-- **Two stacks in step.** The reader with two stacks lists what the reader with one does, and the
fault that it meets in the front of a text is the fault of the text. Whatever comes behind, after
the tokens of a front its stacks and its marks are in step. So a closing parenthesis that finds its
opening one finds a frame as well, and a call that has been listed finds as many values as it has
arguments. -/
theorem Yard.feed_orderly (ts rest : List Token) :
    listing (ts ++ rest) = Listing.ofTokens (ts ++ rest)
    ∧ (∀ f, Token.feed read start ts rest = .error f →
        Listing.ofTokens (ts ++ rest) = .error f)
    ∧ ∀ y, Token.feed read start ts rest = .ok y →
        y.Orderly ts rest
        ∧ (∀ waiting listed, y.releaseAll = (.paren :: waiting, listed) → y.frames ≠ [])
        ∧ ∀ l f n k, y.listed.reverse = l ++ .call f n :: k →
            ∃ stack, Listing.run Expr.nodes l [] = .ok stack ∧ n ≤ stack.length := by
  refine ⟨listing_eq _, fun f h => ?_, fun y h => ?_⟩
  · rw [← listing_eq, listing, Token.feed_append, List.append_nil, h]
    rfl
  · have hsplit := Reading.feed_split (Reading.expects_start (ts ++ rest).head?)
    have hstart : start = Reading.start.split := rfl
    rw [hstart, hsplit] at h
    cases hr : Token.feed Reading.read Reading.start ts rest with
    | error e =>
        rw [hr] at h
        cases h
    | ok r =>
        rw [hr] at h
        obtain rfl : r.split = y := Except.ok.inj h
        have hy := Reading.orderly_split hr
        refine ⟨hy, fun waiting listed => hy.frames_ne_nil, fun l f n k hl => ?_⟩
        obtain ⟨stack, hrun, -⟩ := hy.height
        rw [hl] at hrun
        exact Listing.exists_arguments hrun

/-- The front of a call in which another call has been listed, and a front that is refused. -/
theorem Yard.feed_orderly_of_product :
    let ts : List Token := [.ident "max", .lpar, .ident "abs", .lpar, .num 1, .rpar, .op .mul,
      .num 2]
    (∃ y, Token.feed read start ts [.rpar] = .ok y ∧ y.Orderly ts [.rpar] ∧ y.height = 2
      ∧ y.releaseAll = ([.paren], [.op (.bin .mul), .num 2, .call .abs 1, .num 1])
      ∧ y.frames ≠ []
      ∧ y.listed.reverse = [.num 1] ++ .call .abs 1 :: [.num 2]
      ∧ ∃ stack, Listing.run Expr.nodes [.num 1] [] = .ok stack ∧ 1 ≤ stack.length)
    ∧ Token.feed read start [.op .mul] [.num 2] = .error (.missingLeftOperand .mul)
    ∧ Listing.ofTokens ([.op .mul] ++ [.num 2]) = .error (.missingLeftOperand .mul) := by
  intro ts
  let y : Yard := ⟨[.num 2, .call .abs 1, .num 1], [.op (.bin .mul), .paren], [⟨some .max, 1⟩],
    true, false, none⟩
  have hy : Token.feed read start ts [.rpar] = .ok y := rfl
  have hrel : y.releaseAll = ([.paren], [.op (.bin .mul), .num 2, .call .abs 1, .num 1]) := rfl
  have hlisted : y.listed.reverse = [.num 1] ++ .call .abs 1 :: [.num 2] := rfl
  obtain ⟨horderly, hframes, hcalls⟩ := (feed_orderly ts [.rpar]).2.2 y hy
  have hrefused : Token.feed read start [.op .mul] [.num 2] = .error (.missingLeftOperand .mul) :=
    rfl
  exact ⟨⟨y, hy, horderly, rfl, hrel, hframes _ _ hrel, hlisted, hcalls _ _ _ _ hlisted⟩, hrefused,
    (feed_orderly [.op .mul] [.num 2]).2.1 _ hrefused⟩

end Reckon
