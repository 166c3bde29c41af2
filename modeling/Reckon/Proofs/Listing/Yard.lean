import Reckon.Proofs.Grammar.Derived

/-!
# Reading with two stacks

`Reading` keeps what is pending on one stack, each open parenthesis with the call that it opens. A
shunting yard keeps a bare parenthesis among the operators and leaves what it opens to a second
stack. It has to keep the function that a name calls until the parenthesis comes, and it marks apart
whether the last token ended a value and whether it was a sign. `Yard` is that reader.

A state with one stack splits into one with two (`Reading.split`), and every token does the same to
both (`read_split`). Only states that can come up are meant: where a function is about to be called,
its parenthesis comes next (`Reading.Expects`), or else the yard would keep the function for a later
one. So the two readers go through every text side by side (`feed_split`) and list the same
(`Yard.listing_eq`).
-/

namespace Reckon

/-! ## The reader -/

/-- What waits on the stack of operators: an operator, or an open parenthesis of any kind. -/
inductive Waiting
  | op (o : Operator)
  | paren
deriving DecidableEq

/-- What an open parenthesis opens: a call of a function, or else a group, and how many arguments
have begun. -/
structure Frame where
  callee : Option Builtin
  begun : Nat

/-- The state between two tokens: what is listed already, the latest item first; the two stacks, the
innermost first; whether the last token ended a value or was a sign; and the function whose name it
was, if it calls one. -/
structure Yard where
  listed : List Item
  waiting : List Waiting
  frames : List Frame
  afterValue : Bool
  afterSign : Bool
  called : Option Builtin

namespace Yard

/-- Before the first token. -/
def start : Yard := ⟨[], [], [], false, false, none⟩

/-- Lists the operators on top of the waiting ones as long as they are due. -/
def release (due : Operator → Bool) : List Waiting → List Item → List Waiting × List Item
  | .op o :: waiting, listed =>
    if due o then release due waiting (.op o :: listed) else (.op o :: waiting, listed)
  | waiting, listed => (waiting, listed)

/-- Lists all operators down to the innermost open parenthesis. -/
def releaseAll (y : Yard) : List Waiting × List Item :=
  release (fun _ => true) y.waiting y.listed

/-- A number. -/
def takeNumber (y : Yard) (v : Float) : Except Fault Yard :=
  if y.afterValue then .error (.unexpectedOperand (.num v))
  else .ok { y with listed := .num v :: y.listed, afterValue := true }

/-- A name. A function that is called is kept for its parenthesis. -/
def takeName (y : Yard) (x : String) (next : Option Token) : Except Fault Yard :=
  if y.afterValue then .error (.unexpectedOperand (.ident x))
  else if next = some .lpar then
    match Builtin.ofName? x with
    | some f => .ok { y with called := some f, afterValue := false }
    | none => .error (.unknownFunction x)
  else if (Builtin.ofName? x).isSome then .error (.uncalledFunction x)
  else .ok { y with listed := .var x :: y.listed, afterValue := true }

/-- An opening parenthesis, which goes onto both stacks. -/
def takeOpening (y : Yard) : Except Fault Yard :=
  if y.afterValue then .error (.unexpectedOperand .lpar)
  else .ok { y with
    waiting := .paren :: y.waiting
    frames := ⟨y.called, 1⟩ :: y.frames
    afterValue := false
    called := none }

/-- A comma. The innermost frame counts one more argument, if it is a call's. -/
def takeComma (y : Yard) : Except Fault Yard :=
  if y.afterValue then
    match y.frames with
    | ⟨some f, n⟩ :: frames => .ok { y with
        waiting := y.releaseAll.1
        listed := y.releaseAll.2
        frames := ⟨some f, n + 1⟩ :: frames
        afterValue := false }
    | _ => .error .commaOutsideCall
  else .error .missingArgument

/-- What is left to do with a closing parenthesis once its opening one has been found: the innermost
frame goes, and a call is listed. -/
def closeFrame (y : Yard) (waiting : List Waiting) (listed : List Item) : Except Fault Yard :=
  match y.frames with
  | [] => .error .unopenedParenthesis
  | ⟨none, _⟩ :: frames => .ok { y with waiting, listed, frames, afterValue := true }
  | ⟨some f, n⟩ :: frames =>
    if f.arity.accepts n then
      .ok { y with waiting, listed := .call f n :: listed, frames, afterValue := true }
    else .error (.arity f n)

/-- A closing parenthesis. -/
def takeClosing (y : Yard) : Except Fault Yard :=
  if y.afterValue then
    match y.releaseAll with
    | (.paren :: waiting, listed) => y.closeFrame waiting listed
    | _ => .error .unopenedParenthesis
  else match y.waiting with
    | .paren :: _ => .error .emptyParentheses
    | _ => .error .closedEarly

/-- A sign before an operand. -/
def takeSign (y : Yard) (op : BinOp) : Except Fault Yard :=
  if y.afterSign then .error .repeatedSign
  else .ok { y with waiting := if op = .sub then .op .neg :: y.waiting else y.waiting }

/-- An operator between two operands. -/
def takeBinary (y : Yard) (op : BinOp) : Except Fault Yard :=
  if y.afterValue then .ok { y with
    waiting := .op (.bin op) :: (release (·.precedes (.bin op)) y.waiting y.listed).1
    listed := (release (·.precedes (.bin op)) y.waiting y.listed).2
    afterValue := false }
  else .error (.missingLeftOperand op)

/-- What a token does, but for the mark of a sign. -/
def take (y : Yard) (t : Token) (next : Option Token) : Except Fault Yard :=
  match t with
  | .num v => y.takeNumber v
  | .ident x => y.takeName x next
  | .lpar => y.takeOpening
  | .comma => y.takeComma
  | .rpar => y.takeClosing
  | .op op => if op.isSign && !y.afterValue then y.takeSign op else y.takeBinary op

/-- The effect of one token, given the one after it. -/
def read (y : Yard) (t : Token) (next : Option Token) : Except Fault Yard :=
  (y.take t next).map ({ · with afterSign := t.isSign && !y.afterValue })

/-- Lists what is still waiting after the last token, unless a parenthesis is. -/
def close (y : Yard) : Except Fault Listing :=
  match y.releaseAll with
  | ([], listed) => .ok listed.reverse
  | _ => .error .unclosedParenthesis

end Yard

/-- The state of a reader after the tokens of the front of a text, with `rest` still to come. -/
def Token.feed {σ : Type} (read : σ → Token → Option Token → Except Fault σ) (s : σ) :
    List Token → List Token → Except Fault σ
  | [], _ => .ok s
  | t :: ts, rest => (read s t (ts ++ rest).head?).bind fun s => feed read s ts rest

/-- The listing of an expression. -/
def Yard.listing (ts : List Token) : Except Fault Listing :=
  (Token.feed read start ts []).bind fun y =>
    if y.afterValue then y.close
    else if ts.isEmpty then .error .noTokens
    else .error .missingLastOperand

/-! ## One stack split into two -/

/-- What is pending, as it waits on the stack of operators. -/
def Pending.waiting : Pending → Waiting
  | op o => .op o
  | group => .paren
  | call _ _ => .paren

/-- What is pending, as it stands on the stack of frames. -/
def Pending.frame? : Pending → Option Frame
  | op _ => none
  | group => some ⟨none, 1⟩
  | call f n => some ⟨some f, n⟩

/-- The function that is about to be called. -/
def Last.called? : Last → Option Builtin
  | callee f => some f
  | _ => none

/-- The state with two stacks for a state with one. -/
def Reading.split (r : Reading) : Yard where
  listed := r.listed
  waiting := r.pending.map Pending.waiting
  frames := r.pending.filterMap Pending.frame?
  afterValue := r.last = .value
  afterSign := r.last = .sign
  called := r.last.called?

/-- What a token leaves as the last one, given the token after it. -/
inductive Token.Leaves (next : Option Token) : Token → Last → Prop
  | num (v : Float) : Leaves next (.num v) .value
  | var {x : String} (h : next ≠ some .lpar) : Leaves next (.ident x) .value
  | callee (f : Builtin) (h : next = some .lpar) : Leaves next (.ident f.name) (.callee f)
  | lpar : Leaves next .lpar .opening
  | comma : Leaves next .comma .opening
  | rpar : Leaves next .rpar .value
  | operator (op : BinOp) : Leaves next (.op op) .opening
  | sign (op : BinOp) : Leaves next (.op op) .sign

theorem Token.Leaves.next_eq {next : Option Token} {t : Token} {f : Builtin}
    (h : Leaves next t (.callee f)) : next = some .lpar := by
  cases h with
  | callee _ hnext => exact hnext

namespace Reading

theorem frames_op (o : Operator) (pending : List Pending) :
    (.op o :: pending).filterMap Pending.frame? = pending.filterMap Pending.frame? := rfl

theorem frames_group (pending : List Pending) :
    (.group :: pending).filterMap Pending.frame?
      = ⟨none, 1⟩ :: pending.filterMap Pending.frame? := rfl

theorem frames_call (f : Builtin) (n : Nat) (pending : List Pending) :
    (.call f n :: pending).filterMap Pending.frame?
      = ⟨some f, n⟩ :: pending.filterMap Pending.frame? := rfl

/-- Operators are listed from either stack alike. -/
theorem release_waiting (due : Operator → Bool) (pending : List Pending) (listed : List Item) :
    Yard.release due (pending.map Pending.waiting) listed
      = ((release due pending listed).1.map Pending.waiting, (release due pending listed).2) := by
  induction pending generalizing listed with
  | nil => rfl
  | cons p pending ih =>
      cases p with
      | op o =>
          rw [List.map_cons, Pending.waiting, Yard.release, release]
          by_cases hdue : due o = true
          · rw [if_pos hdue, if_pos hdue, ih]
          · rw [if_neg hdue, if_neg hdue]
            rfl
      | group => rfl
      | call f n => rfl

/-- No frame goes with them. -/
theorem release_frames (due : Operator → Bool) (pending : List Pending) (listed : List Item) :
    (release due pending listed).1.filterMap Pending.frame?
      = pending.filterMap Pending.frame? := by
  induction pending generalizing listed with
  | nil => rfl
  | cons p pending ih =>
      cases p with
      | op o =>
          rw [release]
          by_cases hdue : due o = true
          · rw [if_pos hdue, ih, frames_op]
          · rw [if_neg hdue]
      | group => rfl
      | call f n => rfl

/-- When all operators are listed, a parenthesis is innermost or nothing is. -/
theorem releaseAll_cases (r : Reading) :
    r.releaseAll.1 = [] ∨ (∃ pending, r.releaseAll.1 = .group :: pending)
      ∨ ∃ f n pending, r.releaseAll.1 = .call f n :: pending := by
  obtain ⟨listed, pending, last⟩ := r
  induction pending generalizing listed with
  | nil => exact .inl rfl
  | cons p pending ih =>
      cases p with
      | op o => exact ih (.op o :: listed)
      | group => exact .inr (.inl ⟨pending, rfl⟩)
      | call f n => exact .inr (.inr ⟨f, n, pending, rfl⟩)

/-- The two states list down to the same parenthesis, with the frames that are left for it. -/
theorem exists_released (r : Reading) : ∃ pending listed, r.releaseAll = (pending, listed)
    ∧ r.split.releaseAll = (pending.map Pending.waiting, listed)
    ∧ r.split.frames = pending.filterMap Pending.frame?
    ∧ (pending = [] ∨ (∃ rest, pending = .group :: rest)
      ∨ ∃ f n rest, pending = .call f n :: rest) :=
  ⟨r.releaseAll.1, r.releaseAll.2, rfl, release_waiting _ r.pending r.listed,
    (release_frames _ r.pending r.listed).symm, r.releaseAll_cases⟩

/-! ## Every token does the same to both -/

section

variable {r : Reading} (next : Option Token)

theorem split_afterValue (h : r.last = .value) : r.split.afterValue = true := decide_eq_true h

theorem split_not_afterValue (h : r.last ≠ .value) : r.split.afterValue = false :=
  decide_eq_false h

theorem called?_of_value (h : r.last = .value) : r.last.called? = none := by
  rw [h]
  rfl

theorem read_split_num (v : Float) (h : r.last.called? = none) :
    r.split.read (.num v) next = (r.read (.num v) next).map split := by
  rw [Yard.read, Yard.take, Yard.takeNumber, read, checkOperand]
  by_cases hlast : r.last = .value
  · rw [split_afterValue hlast, if_pos hlast]
    rfl
  · rw [split_not_afterValue hlast, if_neg hlast]
    simp only [Except.map, split, h]
    rfl

theorem readName_split (x : String) (hlast : r.last ≠ .value) (h : r.last.called? = none) :
    (r.split.takeName x next).map ({ · with afterSign := false })
      = (r.readName x (next = some .lpar)).map split := by
  rw [Yard.takeName, split_not_afterValue hlast, readName]
  by_cases hnext : next = some .lpar
  · rw [if_pos hnext, decide_eq_true hnext]
    cases Builtin.ofName? x <;> rfl
  · rw [if_neg hnext, decide_eq_false hnext]
    cases Builtin.ofName? x with
    | none =>
        simp only [Except.map, split, h]
        rfl
    | some f => rfl

theorem read_split_ident (x : String) (h : r.last.called? = none) :
    r.split.read (.ident x) next = (r.read (.ident x) next).map split := by
  rw [Yard.read, Yard.take, read, checkOperand]
  by_cases hlast : r.last = .value
  · rw [Yard.takeName, split_afterValue hlast, if_pos hlast]
    rfl
  · rw [if_neg hlast]
    exact readName_split next x hlast h

theorem read_split_lpar : r.split.read .lpar next = (r.read .lpar next).map split := by
  obtain ⟨listed, pending, last⟩ := r
  cases last <;> rfl

theorem read_split_comma : r.split.read .comma next = (r.read .comma next).map split := by
  rw [Yard.read, Yard.take, Yard.takeComma, read, readComma]
  by_cases hlast : r.last = .value
  · obtain ⟨pending, listed, hrel, hrel', hframes, hcases⟩ := r.exists_released
    rw [split_afterValue hlast, if_pos rfl, if_neg (fun hne => hne hlast), hrel, hrel', hframes]
    rcases hcases with rfl | ⟨rest, rfl⟩ | ⟨f, n, rest, rfl⟩
    · rfl
    · rfl
    · rw [frames_call]
      simp only [Except.map, split, called?_of_value hlast]
      rfl
  · rw [split_not_afterValue hlast, if_pos hlast]
    rfl

theorem read_split_rpar : r.split.read .rpar next = (r.read .rpar next).map split := by
  rw [Yard.read, Yard.take, Yard.takeClosing, read, readClosing]
  by_cases hlast : r.last = .value
  · obtain ⟨pending, listed, hrel, hrel', hframes, hcases⟩ := r.exists_released
    rw [split_afterValue hlast, if_pos rfl, if_neg (fun hne => hne hlast), hrel, hrel']
    rcases hcases with rfl | ⟨rest, rfl⟩ | ⟨f, n, rest, rfl⟩
    · rfl
    · change (Yard.closeFrame _ _ _).map _ = _
      rw [Yard.closeFrame, hframes, frames_group]
      simp only [Except.map, split, called?_of_value hlast]
      rfl
    · change (Yard.closeFrame _ _ _).map _ = _
      rw [Yard.closeFrame, hframes, frames_call]
      by_cases haccepts : f.arity.accepts n = true
      · simp only [haccepts, Except.map, split, called?_of_value hlast]
        rfl
      · simp only [haccepts]
        rfl
  · rw [split_not_afterValue hlast, if_pos hlast]
    -- nothing is listed, so the innermost of what is pending is looked at as it is
    change (match r.pending.map Pending.waiting with
      | .paren :: _ => .error .emptyParentheses
      | _ => .error .closedEarly : Except Fault Yard).map _ = _
    cases r.pending with
    | nil => rfl
    | cons p pending => cases p <;> rfl

theorem read_split_op (op : BinOp) (h : r.last.called? = none) :
    r.split.read (.op op) next = (r.read (.op op) next).map split := by
  rw [Yard.read, Yard.take, read]
  by_cases hlast : r.last = .value
  · simp only [split_afterValue hlast, if_pos hlast, Bool.not_true, Bool.and_false,
      Bool.false_eq_true, if_false, Yard.takeBinary, if_true, readBinary]
    simp only [split, release_waiting, Except.map, h, frames_op, release_frames]
    rfl
  · simp only [split_not_afterValue hlast, if_neg hlast, Bool.not_false, Bool.and_true]
    by_cases hsign : op.isSign = true
    · rw [if_pos hsign, if_pos hsign, Yard.takeSign, readSign]
      by_cases hafter : r.last = .sign
      · have hmark : r.split.afterSign = true := decide_eq_true hafter
        rw [hmark, if_pos hafter]
        rfl
      · have hmark : r.split.afterSign = false := decide_eq_false hafter
        rw [hmark, if_neg hafter]
        by_cases hsub : op = .sub
        · subst hsub
          simp only [Except.map, split, h, if_true, Bool.false_eq_true, if_false,
            decide_eq_false hlast]
          rfl
        · simp only [Except.map, split, h, if_neg hsub, Bool.false_eq_true, if_false,
            Token.isSign, hsign, decide_eq_false hlast]
          rfl
    · rw [if_neg hsign, if_neg hsign, Yard.takeBinary, split_not_afterValue hlast]
      rfl

end

/-- A function waits for its parenthesis and no other token. -/
def Expects (r : Reading) (next : Option Token) : Prop :=
  ∀ f, r.last = .callee f → next = some .lpar

theorem Expects.called?_eq_none {r : Reading} {t : Token} (h : r.Expects (some t))
    (ht : t ≠ .lpar) : r.last.called? = none := by
  cases hlast : r.last with
  | callee f => exact absurd (Option.some.inj (h f hlast)) ht
  | opening => rfl
  | sign => rfl
  | value => rfl

/-- **A token does the same to both.** -/
theorem read_split {r : Reading} {t : Token} (h : r.Expects (some t)) (next : Option Token) :
    r.split.read t next = (r.read t next).map split := by
  cases t with
  | num v => exact read_split_num next v (h.called?_eq_none (by simp))
  | ident x => exact read_split_ident next x (h.called?_eq_none (by simp))
  | lpar => exact read_split_lpar next
  | comma => exact read_split_comma next
  | rpar => exact read_split_rpar next
  | op op => exact read_split_op next op (h.called?_eq_none (by simp))

/-! ## What a token leaves -/

theorem leaves_of_read {r r' : Reading} {t : Token} {next : Option Token}
    (h : r.read t next = .ok r') : Token.Leaves next t r'.last := by
  cases t with
  | num v =>
      obtain ⟨-, rfl⟩ := of_checkOperand_map h
      exact .num v
  | ident x =>
      obtain ⟨-, h⟩ := of_checkOperand_bind h
      rcases readName_cases h with ⟨f, hf, hcalled, rfl⟩ | ⟨hf, rfl⟩
      · obtain rfl := Builtin.name_of_ofName? hf
        exact .callee f (of_decide_eq_true hcalled)
      · refine .var fun hnext => ?_
        -- a name that is called must be a function's
        simp [readName, hf, hnext] at h
  | lpar =>
      obtain ⟨-, rfl⟩ := of_checkOperand_map h
      have hlast : r.readOpening.last = .opening := by
        unfold readOpening
        split <;> rfl
      rw [hlast]
      exact .lpar
  | comma =>
      obtain ⟨-, f, n, pending, listed, -, rfl⟩ := readComma_cases h
      exact .comma
  | rpar =>
      obtain ⟨-, ⟨pending, listed, -, rfl⟩ | ⟨f, n, pending, listed, -, -, rfl⟩⟩ :=
        readClosing_cases h
      · exact .rpar
      · exact .rpar
  | op op =>
      rw [read] at h
      split at h
      · cases h
        exact .operator op
      · split at h
        · obtain ⟨-, rfl⟩ := readSign_cases h
          exact .sign op
        · cases h

theorem expects_of_read {r r' : Reading} {t : Token} {next : Option Token}
    (h : r.read t next = .ok r') : r'.Expects next := by
  intro f hf
  have hleaves := leaves_of_read h
  rw [hf] at hleaves
  exact hleaves.next_eq

/-! ## Whole texts -/

theorem readAll_eq_feed (r : Reading) (ts : List Token) :
    r.readAll ts = Token.feed read r ts [] := by
  induction ts generalizing r with
  | nil => rfl
  | cons t ts ih =>
      rw [readAll, Token.feed, List.append_nil]
      cases r.read t ts.head? with
      | error e => rfl
      | ok r' => exact ih r'

/-- **So do the tokens of any front.** -/
theorem feed_split {ts rest : List Token} {r : Reading} (h : r.Expects (ts ++ rest).head?) :
    Token.feed Yard.read r.split ts rest = (Token.feed read r ts rest).map split := by
  induction ts generalizing r with
  | nil => rfl
  | cons t ts ih =>
      rw [Token.feed, Token.feed, read_split h]
      cases hr : r.read t (ts ++ rest).head? with
      | error e => rfl
      | ok r' => exact ih (expects_of_read hr)

theorem expects_start (next : Option Token) : start.Expects next := nofun

end Reading

theorem Token.feed_append {σ : Type} {read : σ → Token → Option Token → Except Fault σ} {s : σ}
    (ts us rest : List Token) : feed read s (ts ++ us) rest
      = (feed read s ts (us ++ rest)).bind fun s => feed read s us rest := by
  induction ts generalizing s with
  | nil => rfl
  | cons t ts ih =>
      rw [List.cons_append, feed, feed, List.append_assoc]
      cases read s t (ts ++ (us ++ rest)).head? with
      | error e => rfl
      | ok s' => exact ih

/-- The two readers list the same. -/
theorem Yard.listing_eq (ts : List Token) : listing ts = Listing.ofTokens ts := by
  have hsplit := Reading.feed_split (Reading.expects_start (ts ++ []).head?)
  rw [← Reading.readAll_eq_feed] at hsplit
  have hstart : start = Reading.start.split := rfl
  rw [listing, hstart, hsplit, Listing.ofTokens]
  cases Reading.start.readAll ts with
  | error e => rfl
  | ok r =>
      change (if r.split.afterValue then r.split.close else _)
        = (if r.last = .value then r.close else _)
      by_cases hlast : r.last = .value
      · obtain ⟨pending, listed, hrel, hrel', -, hcases⟩ := r.exists_released
        rw [if_pos (Reading.split_afterValue hlast), if_pos hlast, close, Reading.close, hrel,
          hrel']
        rcases hcases with rfl | ⟨rest, rfl⟩ | ⟨f, n, rest, rfl⟩
        · rfl
        · rfl
        · rfl
      · rw [if_neg (by simpa [Reading.split] using hlast), if_neg hlast]

end Reckon
