import JavaRecords.Code.Writes
import JavaRecords.Proofs.Indexed.Tape

set_option autoImplicit false

namespace JavaRecords.Indexed

namespace Tape

variable (tape : Tape)

/-- Whether the token before a place is the operator or separator `c` and touches the token at the
place. -/
def touchedBy (c : Char) (i : Nat) : Run Bool :=
  if i = 0 then return false
  else do
    let previous ← sub i 1
    also (tape.isPunct previous c) (tape.touches previous i)

/-- The first of the angle brackets that touch one another up to a place. -/
def anglesStart : Nat → Run Nat
  | 0 => return 0
  | i + 1 => do if ← tape.touchedBy '>' (i + 1) then anglesStart i else return i + 1

/-- The operator that ends in the equals sign at the place `i`, if the token before it touches it,
and the place where it starts. -/
def compoundAt (i previous : Nat) : Run (Option (Nat × AssignOp)) := do
  match ← tape.text previous with
  | ['='] | ['!'] => return none
  | ['<'] =>
      if ← tape.touchedBy '<' previous then
        let start ← sub previous 1
        return some (start, .shl)
      else return none
  | ['>'] =>
      let start ← tape.anglesStart previous
      match (← sub previous start) + 1 with
      | 2 => return some (start, .shr)
      | 3 => return some (start, .ushr)
      | _ => return none
  | [c] =>
      match AssignOp.ofPunct? c with
      | some op => return some (previous, op)
      | none => return some (i, .assign)
  | _ => return some (i, .assign)

/-- The assignment operator that ends at a place, and the place where it starts. -/
def assignAt (i : Nat) : Run (Option (Nat × AssignOp)) :=
  if !tape.isPunct i '=' then return none
  else do
    if ← also (tape.isPunct (i + 1) '=') (tape.touches i (i + 1)) then return none
    else if i = 0 then return some (i, .assign)
    else
      let previous ← sub i 1
      let touching ← tape.touches previous i
      let token ← tape.token previous
      if touching && token.kind == .punct then tape.compoundAt i previous
      else return some (i, .assign)

def incrementAt (i : Nat) : Run (Option AssignOp) :=
  if tape.tokens.length ≤ i + 1 then return none
  else do
    if ← tape.touches i (i + 1) then
      if tape.isPunct i '+' && tape.isPunct (i + 1) '+' then return some .increment
      else if tape.isPunct i '-' && tape.isPunct (i + 1) '-' then return some .decrement
      else return none
    else return none

def arrowAt (i : Nat) : Run Bool :=
  also (tape.isPunct i '>') (tape.touchedBy '-' i)

end Tape

@[simp] theorem lead_assign : AssignOp.assign.lead = 0 := rfl

@[simp] theorem lead_shl : AssignOp.shl.lead = 2 := rfl

@[simp] theorem lead_shr : AssignOp.shr.lead = 2 := rfl

@[simp] theorem lead_ushr : AssignOp.ushr.lead = 3 := rfl

theorem lead_of_ofPunct? {c : Char} {op : AssignOp} (found : AssignOp.ofPunct? c = some op) :
    op.lead = 1 := by
  unfold AssignOp.ofPunct? at found
  split at found <;> cases found <;> rfl

/-- The place `i` of a tape is that of `token`, with the tokens `before` it, from right to left, and
`after` it. -/
structure Tape.Sees (tape : Tape) (i : Nat) (before : List Token) (token : Token)
    (after : List Token) : Prop where
  tokens : tape.tokens = before.reverse ++ token :: after
  place : i = before.length

namespace Tape.Sees

variable {tape : Tape} {i : Nat} {before earlier after : List Token}
  {token previous following : Token}

theorem here (sees : tape.Sees i before token after) : tape.tokens[i]? = some token := by
  rw [sees.tokens, sees.place, ← List.length_reverse, List.getElem?_append_right le_rfl,
    Nat.sub_self]
  rfl

theorem back (sees : tape.Sees i (previous :: earlier) token after) :
    tape.Sees (i - 1) earlier previous (token :: after) :=
  ⟨by simp [sees.tokens], by simp [sees.place]⟩

theorem next (sees : tape.Sees i before token (following :: after)) :
    tape.Sees (i + 1) (token :: before) following after :=
  ⟨by simp [sees.tokens], by simp [sees.place]⟩

theorem next_none (sees : tape.Sees i before token []) : tape.tokens[i + 1]? = none := by
  rw [List.getElem?_eq_none_iff, sees.tokens, sees.place]
  simp

theorem token_eq (sees : tape.Sees i before token after) : tape.token i = .ok token := by
  rw [Tape.token, sees.here]

theorem isPunct_eq (sees : tape.Sees i before token after) (c : Char) :
    tape.isPunct i c = token.isPunct c := by
  rw [Tape.isPunct, sees.here, Option.any_some]

theorem touchedBy_nil (sees : tape.Sees i [] token after) (c : Char) :
    tape.touchedBy c i = .ok false := if_pos sees.place

theorem touchedBy_cons (sees : tape.Sees i (previous :: earlier) token after) (c : Char) :
    tape.touchedBy c i = .ok (previous.isPunct c && previous.touches token) := by
  have positive : 1 ≤ i := by rw [sees.place, List.length_cons]; omega
  rw [Tape.touchedBy, if_neg (by omega), sub_of_le positive, ok_bind, sees.back.isPunct_eq]
  rw [Tape.touches, sees.back.token_eq, sees.token_eq]
  exact also_ok _ _

theorem touchedBy_eq (sees : tape.Sees i before token after) (c : Char) :
    tape.touchedBy c i = .ok (decide (1 ≤ token.touchingRun c before)) := by
  cases before with
  | nil => exact sees.touchedBy_nil c
  | cons previous earlier =>
      rw [sees.touchedBy_cons, Token.touchingRun]
      cases previous.isPunct c && previous.touches token <;> simp

theorem touchingRun_le (c : Char) (token : Token) (before : List Token) :
    token.touchingRun c before ≤ before.length := by
  induction before generalizing token with
  | nil => exact le_rfl
  | cons previous earlier ih =>
      rw [Token.touchingRun]
      split
      · exact Nat.succ_le_succ (ih previous)
      · exact Nat.zero_le _

theorem anglesStart_eq (sees : tape.Sees i before token after) :
    tape.anglesStart i = .ok (i - token.touchingRun '>' before) := by
  induction before generalizing i token after with
  | nil =>
      rw [sees.place]
      rfl
  | cons previous earlier ih =>
      obtain ⟨j, rfl⟩ : ∃ j, i = j + 1 := ⟨earlier.length, by rw [sees.place, List.length_cons]⟩
      rw [Tape.anglesStart, sees.touchedBy_cons, ok_bind, Token.touchingRun]
      cases previous.isPunct '>' && previous.touches token with
      | false => rfl
      | true =>
          rw [if_pos rfl, if_pos rfl, ih (i := j) sees.back]
          congr 1
          omega

theorem compoundAt_eq (sees : tape.Sees i (previous :: earlier) token after) :
    tape.compoundAt i (i - 1) =
      .ok ((Token.assignAfterPunct previous earlier).map fun op => (i - op.lead, op)) := by
  have text : tape.text (i - 1) = .ok previous.text := by
    rw [Tape.text, sees.back.token_eq]
    rfl
  have bound := touchingRun_le '>' previous earlier
  have place := sees.place
  rw [List.length_cons] at place
  rw [Tape.compoundAt, text, ok_bind, Token.assignAfterPunct]
  clear text
  generalize previous.text = word
  split
  · rfl
  · rfl
  · rw [sees.back.touchedBy_eq, ok_bind]
    by_cases again : 1 ≤ previous.touchingRun '<' earlier
    · have long := touchingRun_le '<' previous earlier
      rw [if_pos (by simpa using again), sub_of_le (by omega)]
      simp [again, Nat.sub_sub]
    · rw [if_neg (by simpa using again)]
      simp [again]
  · rw [sees.back.anglesStart_eq, ok_bind, sub_of_le (Nat.sub_le _ _), ok_bind,
      show i - 1 - (i - 1 - previous.touchingRun '>' earlier) =
        previous.touchingRun '>' earlier by omega]
    generalize previous.touchingRun '>' earlier = length
    rcases length with _ | _ | _ | length
    · rfl
    · simp [Nat.sub_sub]
    · simp [Nat.sub_sub]
    · rfl
  · rename_i c _ _ _ _
    cases found : AssignOp.ofPunct? c with
    | none => split <;> simp_all
    | some op =>
        have lead := lead_of_ofPunct? found
        split <;> simp_all
  · simp_all

theorem assignAt_eq (sees : tape.Sees i before token after) :
    tape.assignAt i = .ok ((token.assignOp? before after).map fun op => (i - op.lead, op)) := by
  have doubled : also (tape.isPunct (i + 1) '=') (tape.touches i (i + 1)) =
      .ok (after.head?.any fun next => next.isPunct '=' && token.touches next) := by
    cases after with
    | nil => simp [Tape.isPunct, sees.next_none]
    | cons following after =>
        rw [sees.next.isPunct_eq, Tape.touches, sees.token_eq, sees.next.token_eq]
        exact also_ok _ _
  rw [Tape.assignAt, sees.isPunct_eq, doubled, Token.assignOp?.eq_def]
  cases token.isPunct '=' with
  | false => rfl
  | true =>
      rw [Bool.not_true, if_neg Bool.false_ne_true, if_neg Bool.false_ne_true, ok_bind]
      cases after.head?.any fun next => next.isPunct '=' && token.touches next with
      | true => rfl
      | false =>
          rw [if_neg Bool.false_ne_true, if_neg Bool.false_ne_true]
          cases before with
          | nil =>
              have first : i = 0 := sees.place
              rw [if_pos first]
              rfl
          | cons previous earlier =>
              have positive : 1 ≤ i := by rw [sees.place, List.length_cons]; omega
              rw [if_neg (by omega), sub_of_le positive, ok_bind, Tape.touches, sees.back.token_eq,
                sees.token_eq, sees.compoundAt_eq]
              dsimp only [ok_bind, pure_eq_ok]
              rw [Bool.and_comm]
              cases previous.kind == .punct && previous.touches token <;> rfl

theorem arrowAt_eq (sees : tape.Sees i before token after) :
    tape.arrowAt i = .ok (token.endsArrow before) := by
  rw [Tape.arrowAt, sees.isPunct_eq, Token.endsArrow]
  cases before with
  | nil =>
      rw [sees.touchedBy_nil]
      exact also_ok _ _
  | cons previous earlier =>
      rw [sees.touchedBy_cons]
      exact also_ok _ _

end Tape.Sees

namespace Tape.Holds

variable {tape : Tape} {all : List CodeToken} {code first second : CodeToken} {i : Nat}
  (holds : tape.Holds all)
include holds

theorem exists_sees (found : all[i]? = some code) : ∃ before after,
    tape.Sees i before code.token after ∧ code.assign = code.token.assignOp? before after ∧
      code.arrow = code.token.endsArrow before := by
  obtain ⟨inside, rfl⟩ := List.getElem?_eq_some_iff.mp found
  have split : all.take i ++ all[i] :: all.drop (i + 1) = all := by
    rw [← List.drop_eq_getElem_cons inside, List.take_append_drop]
  have marks := holds.marks
  rw [← split, Code.marks_append] at marks
  obtain ⟨-, assign, arrow, -⟩ := marks
  rw [List.append_nil] at assign arrow
  refine ⟨_, _, ⟨?_, ?_⟩, assign, arrow⟩
  · rw [holds.tokens, List.reverse_reverse, List.append_nil, ← List.map_cons,
      ← List.map_append, split]
  · simp [Nat.min_eq_left inside.le]

/-- An assignment operator is found at the token that ends it. -/
theorem assignAt_eq (found : all[i]? = some code) :
    tape.assignAt i = .ok (code.assign.map fun op => (i - op.lead, op)) := by
  obtain ⟨before, after, sees, assign, -⟩ := holds.exists_sees found
  rw [assign, sees.assignAt_eq]

theorem arrowAt_eq (found : all[i]? = some code) : tape.arrowAt i = .ok code.arrow := by
  obtain ⟨before, after, sees, -, arrow⟩ := holds.exists_sees found
  rw [arrow, sees.arrowAt_eq]

theorem incrementAt_eq (found : all[i]? = some first) (next : all[i + 1]? = some second) :
    tape.incrementAt i = .ok (CodeToken.increment? first second) := by
  have inside := (List.getElem?_eq_some_iff.mp next).1
  rw [Tape.incrementAt, if_neg (by rw [holds.length_tokens]; omega), Tape.touches,
    holds.token_eq found, holds.token_eq next, holds.isPunct_eq found, holds.isPunct_eq found,
    holds.isPunct_eq next, holds.isPunct_eq next, CodeToken.increment?]
  dsimp only [ok_bind, pure_eq_ok]
  split <;> [skip; rfl]
  split <;> [rfl; skip]
  split <;> rfl

theorem incrementAt_of_none (next : all[i + 1]? = none) : tape.incrementAt i = .ok none := by
  rw [List.getElem?_eq_none_iff, ← holds.length_tokens] at next
  exact if_pos next

theorem isPunct_of_none (absent : all[i]? = none) (c : Char) : tape.isPunct i c = false := by
  rw [Tape.isPunct, holds.getElem?, absent]
  rfl

theorem isIdent_of_none (absent : all[i]? = none) : tape.isIdent i = false := by
  rw [Tape.isIdent, holds.getElem?, absent]
  rfl

theorem assignAt_of_none (absent : all[i]? = none) : tape.assignAt i = .ok none := by
  rw [Tape.assignAt, holds.isPunct_of_none absent]
  rfl

theorem arrowAt_of_none (absent : all[i]? = none) : tape.arrowAt i = .ok false := by
  rw [Tape.arrowAt, holds.isPunct_of_none absent]
  rfl

end Tape.Holds

end JavaRecords.Indexed
