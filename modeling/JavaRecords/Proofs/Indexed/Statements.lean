import JavaRecords.Proofs.Indexed.Modifiers
import JavaRecords.Proofs.Indexed.Writes
import JavaRecords.Proofs.Parse.Body

set_option autoImplicit false

namespace JavaRecords.Indexed

/-- What a run gives, or nothing if it ends with a parse error. A fault stays a fault. -/
def attempt {α : Type} : Run α → Run (Option α)
  | .ok value => .ok (some value)
  | .error (.parse _) => .ok none
  | .error (.fault fault) => .error (.fault fault)

namespace Tape

variable (tape : Tape)

/-- The place after a piece without the semicolon that ends it. -/
def trimmedEnd (last : Nat) : Nat := if tape.isPunct last ';' then last else last + 1

/-- The expression from the place `i` on and before `j`. -/
def expr (i j : Nat) : Run Expr :=
  if j ≤ i then return ⟨[], .other⟩
  else do
    let size ← sub j i
    let named ← also (size == 1 && tape.isIdent i) ((tape.text i).map (!isKeyword ·))
    let ofThis := size == 3 && tape.isWord i "this" && tape.isPunct (i + 1) '.'
      && tape.isIdent (i + 2)
    let last ← sub j 1
    let text ← tape.spanText i last
    return ⟨text, if named then .name else if ofThis then .thisField else .other⟩

/-- The type and the name of a local variable that is declared from the place `i` on and before
`j`, and nothing else there. -/
def localDeclaration (i j : Nat) : Run (Option (Text × Text)) := do
  match ← attempt (tape.modifiers j i) with
  | none => return none
  | some (_, first) =>
      if ← also (first + 2 ≤ j && tape.isIdent first) ((tape.text first).map isTypeName) then do
        let name ← sub j 1
        if ← also (tape.isIdent name) ((tape.text name).map (!isKeyword ·)) then do
          let last ← sub name 1
          if ← tape.endsType first last then do
            let ty ← tape.spanText first last
            let name ← tape.text name
            return some (ty, name)
          else return none
        else return none
      else return none

def constructorCall (i j : Nat) : Run (Option (CallKind × Text)) :=
  if (tape.isWord i "this" || tape.isWord i "super") && tape.isPunct (i + 1) '(' then do
    match ← attempt (tape.matching (i + 1) '(' ')' j) with
    | none => return none
    | some closing =>
        if closing + 1 = j then
          let kind := if tape.isWord i "this" then .this else .super
          if i + 2 < closing then do
            let last ← sub closing 1
            let arguments ← tape.spanText (i + 2) last
            return some (kind, arguments)
          else return some (kind, [])
        else return none
  else return none

def opensBracket (k : Nat) : Bool :=
  tape.isPunct k '(' || tape.isPunct k '[' || tape.isPunct k '{'

def closesBracket (k : Nat) : Bool :=
  tape.isPunct k ')' || tape.isPunct k ']' || tape.isPunct k '}'

/-- The local variable that is declared in front of an operator, if the operator gives it
a value. -/
def declaredBefore (i start : Nat) (op : AssignOp) : Run (Option (Text × Text)) :=
  if op = .assign then tape.localDeclaration i start else return none

/-- The assignment or declaration from the place `i` on and before `j`, whose operator starts at the
place `start` and ends at the place `k`. -/
def assignmentAt (i j k start : Nat) (op : AssignOp) (written : Text) : Run Stmt := do
  match ← tape.declaredBefore i start op with
  | some (ty, name) =>
      let value ← tape.expr (k + 1) j
      return .localVar ty name (some value) written
  | none =>
      let target ← tape.expr i start
      let value ← tape.expr (k + 1) j
      return .assign target op (some value) written

/-- The assignment or declaration from the place `i` on and before `j`, whose operator is the first
outside brackets from the place `k` on. -/
def assignmentFrom (i j : Nat) (written : Text) (depth k : Nat) : Run (Option Stmt) :=
  if _ : k < j then
    if tape.opensBracket k then assignmentFrom i j written (depth + 1) (k + 1)
    else if tape.closesBracket k then assignmentFrom i j written (depth - 1) (k + 1)
    else if depth = 0 then do
      match ← tape.assignAt k with
      | some (start, op) =>
          let stmt ← tape.assignmentAt i j k start op written
          return some stmt
      | none => assignmentFrom i j written depth (k + 1)
    else assignmentFrom i j written depth (k + 1)
  else return none
termination_by j - k

/-- The increment or decrement that starts at a place, and what it applies to. -/
def leadingStep (i j : Nat) : Run (Option (AssignOp × Expr)) := do
  match ← tape.incrementAt i with
  | some op =>
      let target ← tape.expr (i + 2) j
      return some (op, target)
  | none => return none

/-- The increment or decrement that ends before a place, and what it applies to. -/
def trailingStep (i j : Nat) : Run (Option (AssignOp × Expr)) :=
  if i + 3 ≤ j then do
    let start ← sub j 2
    match ← tape.incrementAt start with
    | some op =>
        let target ← tape.expr i start
        return some (op, target)
    | none => return none
  else return none

def plainStatement (i j : Nat) (written : Text) : Run Stmt := do
  match ← tape.constructorCall i j with
  | some (kind, arguments) => return .constructorCall kind arguments written
  | none =>
      match ← tape.leadingStep i j with
      | some (op, target) => return .assign target op none written
      | none =>
          match ← tape.assignmentFrom i j written 0 i with
          | some stmt => return stmt
          | none =>
              match ← tape.trailingStep i j with
              | some (op, target) => return .assign target op none written
              | none =>
                  match ← tape.localDeclaration i j with
                  | some (ty, name) => return .localVar ty name none written
                  | none => return .other written

def statement (i last : Nat) : Run Stmt := do
  let written ← tape.spanText i last
  let j := tape.trimmedEnd last
  if j ≤ i then return .other written
  else if tape.isWord i "return" then
    if i + 1 < j then do
      let value ← tape.expr (i + 1) j
      return .ret (some value) written
    else return .ret none written
  else tape.plainStatement i j written

def statementsFrom (closing i : Nat) : Run (List Stmt) :=
  if _ : i < closing then do
    let last ← tape.pieceEnd tape.statementEnds i closing
    let stmt ← tape.statement i last
    if _ : i ≤ last then do
      let rest ← statementsFrom closing (last + 1)
      return stmt :: rest
    else stuck
  else return []
termination_by closing - i

def body (opening closing : Nat) : Run Body := do
  let statements ← tape.statementsFrom closing (opening + 1)
  let text ← tape.spanText opening closing
  return ⟨text, statements⟩

end Tape

@[simp] theorem attempt_lift {α : Type} (result : Except ParseError α) :
    attempt (lift result) = .ok result.toOption := by
  cases result <;> rfl

/-- The statement that an assignment operator makes. -/
def assigned (written : Text) (split : Code.AssignSplit) : Stmt :=
  match split.op, Code.localDeclaration? split.target with
  | .assign, some (ty, name) => .localVar ty name (some (Code.expr split.value)) written
  | op, _ => .assign (Code.expr split.target) op (some (Code.expr split.value)) written

theorem assigned_of_ne {op : AssignOp} (written : Text) (target value : List CodeToken)
    (other : op ≠ .assign) : assigned written ⟨target, op, value⟩ =
      .assign (Code.expr target) op (some (Code.expr value)) written := by
  cases op <;> first | exact absurd rfl other | rfl

theorem increment?_of_isPunct {first second : CodeToken} {c : Char}
    (punct : first.isPunct c = true ∨ second.isPunct c = true)
    (other : (c == '+' || c == '-') = false) :
    CodeToken.increment? first second = none := by
  obtain ⟨plus, minus⟩ := Bool.or_eq_false_iff.mp other
  unfold CodeToken.increment?
  obtain punct | punct := punct
  · simp [CodeToken.isPunct_of_isPunct punct, plus, minus]
  · simp [CodeToken.isPunct_of_isPunct punct, plus, minus]

namespace Tape.Holds

variable {tape : Tape} {all part rest front : List CodeToken} {first : CodeToken} {i j k : Nat}
  (holds : tape.Holds all)
include holds

theorem expr_eq (stretch : Stretch all i part j) : tape.expr i j = .ok (Code.expr part) := by
  have size := stretch.length
  rw [Tape.expr]
  cases part with
  | nil =>
      rw [if_pos stretch.eq_of_nil.le]
      rfl
  | cons first rest =>
      have here := stretch.head
      have last := holds.spanText_eq stretch (List.cons_ne_nil _ _)
      rw [if_neg (not_le.mpr stretch.lt), sub_of_le stretch.lt.le, ok_bind,
        sub_of_le (show 1 ≤ j from Nat.zero_lt_of_lt stretch.lt),
        show j - i = (first :: rest).length by omega, holds.text_eq here, holds.isIdent_eq here,
        holds.isWord_eq here]
      simp only [map_ok, also_ok, ok_bind, pure_eq_ok, last]
      rcases rest with _ | ⟨dot, _ | ⟨name, _ | ⟨more, rest⟩⟩⟩
      · simp [Code.expr]
      · simp [Code.expr]
      · rw [holds.isPunct_eq stretch.tail.head, holds.isIdent_eq stretch.tail.tail.head]
        simp [Code.expr]
      · simp [Code.expr]

theorem attempt_modifiers_eq (guarded : Guarded all i part j) :
    attempt (tape.modifiers j i) = .ok ((Code.modifiers part).toOption.map fun run =>
      (run.modifiers, i + run.taken.length)) := by
  rw [holds.modifiers_eq guarded, attempt_lift]
  cases Code.modifiers part <;> rfl

/-- A local variable is declared at a place if it is declared by the part there. -/
theorem localDeclaration_eq (guarded : Guarded all i part j) :
    tape.localDeclaration i j = .ok (Code.localDeclaration? part) := by
  rw [Tape.localDeclaration, holds.attempt_modifiers_eq guarded, ok_bind, Code.localDeclaration?]
  cases read : Code.modifiers part with
  | error error => rfl
  | ok run =>
      have behind := (holds.guarded_of_modifiers guarded read).stretch
      simp only [Except.toOption, Option.map_some]
      generalize i + run.taken.length = start at behind
      rcases isRest : run.rest with _ | ⟨first, _ | ⟨second, more⟩⟩
      · rw [isRest] at behind
        rw [decide_eq_false (by simp [behind.eq_of_nil])]
        rfl
      · rw [isRest] at behind
        rw [decide_eq_false (by simp [behind.length])]
        rfl
      · rw [isRest] at behind
        have size := behind.length
        simp only [List.length_cons] at size
        have isFirst := behind.head
        -- The name is the last token, and the type is what stands before it.
        obtain ⟨front, name, concat⟩ :=
          (List.eq_nil_or_concat (second :: more)).resolve_left (by simp)
        rw [List.concat_eq_append] at concat
        obtain ⟨earlier, last, types⟩ :=
          (List.eq_nil_or_concat (first :: front)).resolve_left (by simp)
        rw [List.concat_eq_append] at types
        have whole : first :: second :: more = earlier ++ [last] ++ [name] := by
          rw [concat, ← List.cons_append, types]
        have reversed : (first :: second :: more).reverse = name :: last :: earlier.reverse := by
          rw [whole]
          simp
        have dropped : (first :: second :: more).dropLast = earlier ++ [last] := by
          rw [whole, List.dropLast_concat]
        rw [whole] at behind
        have isName : all[j - 1]? = some name := behind.last
        have before := behind.append.1
        rw [show start + (earlier ++ [last]).length = j - 1 - 1 + 1 by
          have := congrArg List.length whole
          simp at this ⊢
          omega] at before
        have typed := holds.endsType_eq before (by simp)
        have span := holds.spanText_eq before (by simp)
        rw [Nat.add_sub_cancel] at span
        rw [reversed, dropped, decide_eq_true (by omega), sub_of_le (show 1 ≤ j by omega), ok_bind,
          sub_of_le (show 1 ≤ j - 1 by omega), ok_bind, typed, span, holds.text_eq isFirst,
          holds.text_eq isName, holds.isIdent_eq isFirst, holds.isIdent_eq isName]
        simp only [map_ok, also_ok, ok_bind, Bool.true_and, List.reverse_append, List.reverse_cons,
          List.reverse_nil, List.nil_append, List.cons_append, Code.endsType, pure_eq_ok]
        rw [Bool.and_assoc (first.isIdent && _) name.isIdent]
        generalize (first.isIdent && _) = isType, (name.isIdent && _) = isFree, (_ || _) = ends
        cases isType <;> cases isFree <;> cases ends <;> rfl

theorem constructorCall_eq (guarded : Guarded all i (first :: rest) j) :
    tape.constructorCall i j = .ok (Code.constructorCall? (first :: rest)) := by
  rw [Tape.constructorCall, holds.isWord_eq guarded.stretch.head,
    holds.isWord_eq guarded.stretch.head]
  cases named : first.isWord "this" || first.isWord "super" with
  | false =>
      obtain ⟨notThis, notSuper⟩ := Bool.or_eq_false_iff.mp named
      cases rest with
      | nil => rfl
      | cons paren after => simp [Code.constructorCall?, notThis, notSuper]
  | true =>
      have ident : first.isIdent = true := by
        obtain isThis | isSuper := Bool.or_eq_true_iff.mp named
        · exact CodeToken.isIdent_of_isWord isThis
        · exact CodeToken.isIdent_of_isWord isSuper
      have next := guarded.tail (stopsPiece_of_isIdent ident)
      rw [holds.isPunct_head next (by decide), Bool.true_and]
      cases rest with
      | nil => rfl
      | cons paren after =>
          rw [List.head?_cons, Option.any_some, Code.constructorCall?]
          cases isParen : paren.isPunct '(' with
          | false => rfl
          | true =>
              have kind : (if first.isWord "this" then some CallKind.this
                  else if first.isWord "super" then some .super else none) =
                    some (if first.isWord "this" then .this else .super) := by
                cases isThis : first.isWord "this" <;> simp_all
              rw [holds.matching_eq next.stretch isParen, attempt_lift, Code.close, kind]
              cases closed : Code.close? '(' ')' 0 after with
              | none => rfl
              | some enclosed =>
                  obtain ⟨inside, closing, after'⟩ := enclosed
                  have whole : inside ++ closing :: after' = after := Code.tokens_of_close? closed
                  have inner := next.stretch.tail
                  have size := inner.length
                  rw [← whole] at inner size
                  simp only [List.length_append, List.length_cons] at size
                  simp only [if_true, Except.map, Except.toOption, ok_bind, Option.bind_eq_bind,
                    Option.bind_some]
                  cases after' with
                  | cons more after' =>
                      rw [if_neg (by simp at size; omega)]
                      rfl
                  | nil =>
                      rw [if_pos (by simp at size; omega)]
                      cases inside with
                      | nil =>
                          rw [if_neg (by simp)]
                          rfl
                      | cons argument inside =>
                          have span := holds.spanText_eq inner.append.1 (by simp)
                          rw [if_pos (by simp), sub_of_le (by omega), ok_bind]
                          rw [show i + 1 + 1 = i + 2 by rfl] at *
                          rw [span]
                          rfl

/-- The increment or decrement that starts with the first token of a part. -/
theorem incrementAt_head (guarded : Guarded all i (first :: rest) j) :
    tape.incrementAt i = .ok (rest.head?.bind (CodeToken.increment? first)) := by
  have here := guarded.stretch.head
  cases rest with
  | cons second rest => exact holds.incrementAt_eq here guarded.stretch.tail.head
  | nil =>
      have behind : i + 1 = j := guarded.stretch.length.symm
      cases next : all[i + 1]? with
      | none => exact holds.incrementAt_of_none next
      | some second =>
          rw [holds.incrementAt_eq here next]
          congr 1
          obtain ends | fence := guarded.fence
          · obtain semicolon | brace := Bool.or_eq_true_iff.mp ends
            · exact increment?_of_isPunct (.inl semicolon) (by decide)
            · exact increment?_of_isPunct (.inl brace) (by decide)
          · obtain ⟨c, isFence, punct⟩ := fence second (behind ▸ next)
            have plain : ∀ c ∈ fences, (c == '+' || c == '-') = false := by simp [fences]
            exact increment?_of_isPunct (.inr punct) (plain c isFence)

theorem expr_take (stretch : Stretch all i front k) (n : Nat) :
    tape.expr i (k - n) = .ok (Code.expr (front.take (front.length - n))) := by
  have size := stretch.length
  by_cases inside : n ≤ front.length
  · have split := List.take_append_drop (front.length - n) front
    have shorter : Stretch all i (front.take (front.length - n)) (i + (front.length - n)) := by
      have whole := stretch
      rw [← split] at whole
      have left := whole.append.1
      rwa [List.length_take, Nat.min_eq_left (Nat.sub_le _ _)] at left
    rw [← holds.expr_eq shorter]
    congr 1
    omega
  · rw [Tape.expr, if_pos (by omega), show front.length - n = 0 by omega]
    rfl

theorem leadingStep_eq (guarded : Guarded all i (first :: rest) j) :
    tape.leadingStep i j = .ok ((Code.leadingStep? (first :: rest)).map fun step =>
      (step.1, Code.expr step.2)) := by
  rw [Tape.leadingStep, holds.incrementAt_head guarded, ok_bind]
  cases rest with
  | nil => rfl
  | cons second rest =>
      rw [List.head?_cons, Option.bind_some, Code.leadingStep?]
      cases CodeToken.increment? first second with
      | none => rfl
      | some op =>
          simp only [holds.expr_eq guarded.stretch.tail.tail]
          rfl

theorem trailingStep_eq (stretch : Stretch all i part j) :
    tape.trailingStep i j = .ok ((Code.trailingStep? part).map fun step =>
      (step.1, Code.expr step.2)) := by
  have size := stretch.length
  rw [Tape.trailingStep, Code.trailingStep?]
  have whole := part.reverse_reverse
  rcases reversed : part.reverse with _ | ⟨last, _ | ⟨previous, _ | ⟨target, front⟩⟩⟩
  · rw [reversed] at whole
    rw [← whole] at size
    rw [if_neg (by simp at size; omega)]
    rfl
  · rw [reversed] at whole
    rw [← whole] at size
    rw [if_neg (by simp at size; omega)]
    rfl
  · rw [reversed] at whole
    rw [← whole] at size
    rw [if_neg (by simp at size; omega)]
    rfl
  · rw [reversed, List.reverse_cons, List.reverse_cons, List.append_assoc] at whole
    rw [← whole] at size stretch
    have left := stretch.append.1
    have right := stretch.append.2
    have start : i + (target :: front).reverse.length = j - 2 := by simp at size ⊢; omega
    rw [start] at left right
    rw [if_pos (by simp at size; omega), sub_of_le (by simp at size; omega), ok_bind,
      holds.incrementAt_eq right.head right.tail.head, ok_bind]
    dsimp only
    cases CodeToken.increment? previous last with
    | none => rfl
    | some op =>
        simp only [holds.expr_eq left]
        rfl

theorem assignmentAt_eq {code : CodeToken} {op : AssignOp} (stretch : Stretch all i front k)
    (here : all[k]? = some code) (ends : code.assign = some op)
    (behind : Stretch all (k + 1) rest j) (written : Text) :
    tape.assignmentAt i j k (k - op.lead) op written =
      .ok (assigned written ⟨(front.reverse.drop op.lead).reverse, op, rest⟩) := by
  rw [List.drop_reverse, List.reverse_reverse, Tape.assignmentAt, Tape.declaredBefore,
    holds.expr_eq behind, holds.expr_take stretch]
  by_cases isAssign : op = .assign
  · subst isAssign
    have guarded : Guarded all i front k := by
      refine ⟨stretch, .inr fun next found => ?_⟩
      obtain rfl : code = next := Option.some.inj (here.symm.trans found)
      exact ⟨'=', by decide, holds.marked here (by rw [ends]; rfl)⟩
    rw [lead_assign, Nat.sub_zero, Nat.sub_zero, List.take_length, if_pos rfl,
      holds.localDeclaration_eq guarded, assigned]
    cases Code.localDeclaration? front <;> rfl
  · rw [if_neg isAssign, assigned_of_ne written _ _ isAssign]
    rfl

theorem assignmentFrom_eq (written : Text) (depth : Nat) (front : List CodeToken)
    (stretch : Stretch all i (front ++ part) j) :
    tape.assignmentFrom i j written depth (i + front.length) =
      .ok ((Code.splitAssign? depth front.reverse part).map (assigned written)) := by
  induction part generalizing front depth with
  | nil =>
      rw [Tape.assignmentFrom, dif_neg (by simp [stretch.length])]
      rfl
  | cons code rest ih =>
      have here := stretch.append.2.head
      have onward : ∀ depth, tape.assignmentFrom i j written depth (i + front.length + 1) =
          .ok ((Code.splitAssign? depth (code :: front.reverse) rest).map (assigned written)) := by
        intro depth
        have next := ih depth (front ++ [code]) (by simpa using stretch)
        rwa [List.length_append, List.length_singleton, List.reverse_append, List.reverse_singleton,
          List.singleton_append] at next
      have opens : tape.opensBracket (i + front.length) = Code.opensBracket code := by
        simp only [Tape.opensBracket, holds.isPunct_eq here, Code.opensBracket]
      have closes : tape.closesBracket (i + front.length) = Code.closesBracket code := by
        simp only [Tape.closesBracket, holds.isPunct_eq here, Code.closesBracket]
      rw [Tape.assignmentFrom, dif_pos stretch.append.2.lt, Code.splitAssign?.eq_def, opens, closes]
      dsimp only
      split
      · exact onward _
      split
      · exact onward _
      cases depth with
      | succ depth => exact onward _
      | zero =>
          rw [if_pos rfl, holds.assignAt_eq here, ok_bind]
          cases ends : code.assign with
          | none => exact onward 0
          | some op =>
              rw [Option.map_some]
              simp only [holds.assignmentAt_eq stretch.append.1 here ends stretch.append.2.tail]
              rfl

/-- A piece without the semicolon that ends it. -/
theorem guarded_trimmed {piece : Piece} (guarded : Guarded all i piece.tokens j) :
    Guarded all i piece.trimmed (tape.trimmedEnd (j - 1)) := by
  have whole := guarded.stretch
  have size := whole.length
  rw [← piece.dropLast_append_last] at whole size
  rw [List.length_append, List.length_singleton] at size
  have isLast : all[j - 1]? = some piece.last := whole.last
  rw [Tape.trimmedEnd, holds.isPunct_eq isLast, Piece.trimmed]
  split
  · refine ⟨?_, .inr fun next found => ?_⟩
    · rw [show j - 1 = i + piece.tokens.dropLast.length by omega]
      exact whole.append.1
    · obtain rfl : piece.last = next := Option.some.inj (isLast.symm.trans found)
      exact ⟨';', by decide, ‹_›⟩
  · rwa [Nat.sub_add_cancel (by omega)]

theorem statement_eq {piece : Piece} (guarded : Guarded all i piece.tokens j) :
    tape.statement i (j - 1) = .ok (Code.statement piece) := by
  have inner := holds.guarded_trimmed guarded
  have start := inner.stretch
  have written : tape.spanText i (j - 1) = .ok piece.text :=
    holds.spanText_eq guarded.stretch piece.tokens_ne_nil
  rw [Tape.statement, written, ok_bind, Code.statement]
  generalize tape.trimmedEnd (j - 1) = stop at inner start
  cases trimmed : piece.trimmed with
  | nil =>
      rw [trimmed] at start
      rw [if_pos start.eq_of_nil.le]
      rfl
  | cons first rest =>
      rw [trimmed] at inner start
      rw [if_neg (not_le.mpr start.lt), holds.isWord_eq start.head]
      dsimp only
      cases first.isWord "return" with
      | true =>
          rw [if_pos rfl, if_pos rfl]
          cases rest with
          | nil =>
              rw [if_neg (by simp [start.length])]
              rfl
          | cons second rest =>
              rw [if_pos start.tail.lt, holds.expr_eq start.tail]
              rfl
      | false =>
          rw [if_neg Bool.false_ne_true, if_neg Bool.false_ne_true, Tape.plainStatement,
            holds.constructorCall_eq inner, ok_bind]
          cases Code.constructorCall? (first :: rest) with
          | some call => rfl
          | none =>
              simp only [holds.leadingStep_eq inner, ok_bind]
              cases Code.leadingStep? (first :: rest) with
              | some step => rfl
              | none =>
                  have assigns := holds.assignmentFrom_eq piece.text 0 [] start
                  rw [List.length_nil, Nat.add_zero] at assigns
                  simp only [Option.map_none, assigns, ok_bind, List.reverse_nil, Code.assignment?]
                  cases Code.splitAssign? 0 [] (first :: rest) with
                  | some split => rfl
                  | none =>
                      simp only [Option.map_none, holds.trailingStep_eq start, ok_bind]
                      cases Code.trailingStep? (first :: rest) with
                      | some step => rfl
                      | none =>
                          simp only [Option.map_none, holds.localDeclaration_eq inner, ok_bind]
                          cases Code.localDeclaration? (first :: rest) <;> rfl

/-- The statements from a place on are those that the part there is cut into. -/
theorem statementsFrom_eq (fence : ∀ next, all[j]? = some next →
    ∃ c ∈ fences, next.isPunct c = true)
    {i : Nat} {part : List CodeToken} (stretch : Stretch all i part j) :
    tape.statementsFrom j i = lift (match (Code.pieces Code.statementRule part).unclosed with
      | some offset => .error (.unbalanced '{' offset)
      | none => .ok ((Code.pieces Code.statementRule part).pieces.map Code.statement)) := by
  match part with
  | [] =>
      rw [Tape.statementsFrom, dif_neg (by simp [stretch.eq_of_nil])]
      rfl
  | first :: rest =>
      rw [Tape.statementsFrom, dif_pos stretch.lt]
      obtain ⟨offset, cut, found⟩ | ⟨piece, more, split, ends, cut, -, found⟩ :=
        holds.pieceEnd_eq holds.agrees_statementEnds stretch
      · rw [found, cut]
        rfl
      · have positive := List.length_pos_iff.mpr piece.tokens_ne_nil
        have shorter : more.length < (first :: rest).length := by
          rw [split, List.length_append]
          omega
        rw [split] at stretch
        have guarded := Guarded.of_append stretch ends fence
        have others := statementsFrom_eq fence stretch.append.2
        rw [found, cut, ok_bind, holds.statement_eq guarded, ok_bind, dif_pos (by omega),
          Nat.sub_add_cancel (by omega), others]
        dsimp only
        cases (Code.pieces Code.statementRule more).unclosed <;> rfl
termination_by part.length
decreasing_by exact shorter

theorem body_eq {block : List CodeToken} (stretch : Stretch all i block j)
    (braced : Code.Braced block) : tape.body i (j - 1) = lift (Code.body block) := by
  obtain ⟨opening, inside, closing, rfl, -, closes⟩ := braced
  have span := holds.spanText_eq stretch (List.cons_ne_nil _ _)
  have inner := stretch.tail
  have size := inner.length
  rw [List.length_append, List.length_singleton] at size
  have isLast : all[j - 1]? = some closing := inner.last
  have inside' : Stretch all (i + 1) inside (j - 1) := by
    rw [show j - 1 = i + 1 + inside.length by omega]
    exact inner.append.1
  rw [Tape.body, holds.statementsFrom_eq _ inside', span, Code.body, List.tail_cons,
    List.dropLast_concat]
  · cases (Code.pieces Code.statementRule inside).unclosed <;> rfl
  · intro next found
    obtain rfl : closing = next := Option.some.inj (isLast.symm.trans found)
    exact ⟨'}', by decide, closes⟩

end Tape.Holds

end JavaRecords.Indexed
