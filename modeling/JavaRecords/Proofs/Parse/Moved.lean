import JavaRecords.Proofs.Parse.Member
import JavaRecords.Proofs.Conversion.Alike

set_option autoImplicit false

namespace JavaRecords

/-- A code token moved by `by` bytes, with what stands before it as its blank text. -/
def CodeToken.move (distance : Nat) (code : CodeToken) : CodeToken where
  token := ⟨code.token.kind, code.lead, code.text, code.start + distance⟩
  comments := []
  assign := code.assign
  arrow := code.arrow

namespace CodeToken

variable (distance : Nat) (code other : CodeToken)

@[simp] theorem isPunct_move (c : Char) : (code.move distance).isPunct c = code.isPunct c := rfl

@[simp] theorem isIdent_move : (code.move distance).isIdent = code.isIdent := rfl

@[simp] theorem isWord_move (word : String) :
    (code.move distance).isWord word = code.isWord word := rfl

@[simp] theorem text_move : (code.move distance).text = code.text := rfl

@[simp] theorem start_move : (code.move distance).start = code.start + distance := rfl

@[simp] theorem assign_move : (code.move distance).assign = code.assign := rfl

@[simp] theorem arrow_move : (code.move distance).arrow = code.arrow := rfl

@[simp] theorem lead_move : (code.move distance).lead = code.lead := by
  simp [move, lead]

@[simp] theorem increment?_move :
    increment? (code.move distance) (other.move distance) = increment? code other := by
  have touches : (code.move distance).token.touches (other.move distance).token =
      code.token.touches other.token := by
    rw [Bool.eq_iff_iff]
    simp only [Token.touches, Token.stop, move, beq_iff_eq, CodeToken.text, CodeToken.start]
    omega
  simp [increment?, touches]

end CodeToken

def ParseError.move (distance : Nat) : ParseError → ParseError
  | .unbalanced c offset => .unbalanced c (offset + distance)
  | error => error

namespace Code

variable (distance : Nat)

@[simp] theorem text_move (code : List CodeToken) :
    text (code.map (CodeToken.move distance)) = text code := by
  cases code with
  | nil => rfl
  | cons first rest => simp [List.flatMap_map]

end Code

def Enclosed.move (distance : Nat) (enclosed : Enclosed) : Enclosed where
  inside := enclosed.inside.map (CodeToken.move distance)
  closing := enclosed.closing.move distance
  rest := enclosed.rest.map (CodeToken.move distance)

def ModifierStep.move (distance : Nat) (step : ModifierStep) : ModifierStep where
  add := step.add
  taken := step.taken.map (CodeToken.move distance)
  rest := step.rest.map (CodeToken.move distance)

def ModifierRun.move (distance : Nat) (run : ModifierRun) : ModifierRun where
  modifiers := run.modifiers
  taken := run.taken.map (CodeToken.move distance)
  rest := run.rest.map (CodeToken.move distance)

namespace Code

variable (distance : Nat)

theorem close?_move (left right : Char) (depth : Nat) (code : List CodeToken) :
    close? left right depth (code.map (CodeToken.move distance)) =
      (close? left right depth code).map (Enclosed.move distance) := by
  fun_induction close? left right depth code <;>
    simp_all [close?, Enclosed.push, Enclosed.move, Function.comp_def]

def moved {α β : Type} (f : α → β) : Except ParseError α → Except ParseError β
  | .ok value => .ok (f value)
  | .error error => .error (error.move distance)

@[simp] theorem moved_ok {α β : Type} (f : α → β) (value : α) :
    moved distance f (.ok value) = .ok (f value) := rfl

@[simp] theorem moved_error {α β : Type} (f : α → β) (error : ParseError) :
    moved distance f (.error error) = .error (error.move distance) := rfl

theorem close_move (left right : Char) (opening : CodeToken) (code : List CodeToken) :
    close left right (opening.move distance) (code.map (CodeToken.move distance)) =
      moved distance (Enclosed.move distance) (close left right opening code) := by
  unfold close
  rw [close?_move]
  cases close? left right 0 code <;> rfl

theorem qualifiers_move (code : List CodeToken) :
    qualifiers (code.map (CodeToken.move distance)) =
      ((qualifiers code).1.map (CodeToken.move distance),
        (qualifiers code).2.map (CodeToken.move distance)) := by
  fun_induction qualifiers code with
  | case1 dot name rest named more remaining split ih => simp_all [qualifiers]
  | case2 dot name rest unnamed => simp_all [qualifiers]
  | case3 code short =>
      cases code with
      | nil => rfl
      | cons first rest =>
          cases rest with
          | nil => rfl
          | cons second rest => exact absurd rfl (short first second rest)

theorem annotationStep_move (taken rest : List CodeToken) :
    annotationStep (taken.map (CodeToken.move distance)) (rest.map (CodeToken.move distance)) =
      (annotationStep taken rest).move distance := by
  simp [annotationStep, ModifierStep.move]

theorem annotation?_move (sign : CodeToken) (code : List CodeToken) :
    annotation? (sign.move distance) (code.map (CodeToken.move distance)) =
      moved distance (Option.map (ModifierStep.move distance)) (annotation? sign code) := by
  cases code with
  | nil => rfl
  | cons name rest =>
      simp only [annotation?, List.map_cons, CodeToken.isIdent_move, CodeToken.isWord_move,
        qualifiers_move]
      split
      · generalize qualifiers rest = parts
        obtain ⟨qualifier, remaining⟩ := parts
        cases remaining with
        | nil => simp [← annotationStep_move]
        | cons paren after =>
            simp only [List.map_cons, CodeToken.isPunct_move, close_move]
            split
            · cases close '(' ')' paren after with
              | error error => rfl
              | ok arguments => simp [← annotationStep_move, Enclosed.move]
            · simp [← annotationStep_move]
      · rfl

theorem wordModifier?_move (word : CodeToken) (rest : List CodeToken) :
    wordModifier? (word.move distance) (rest.map (CodeToken.move distance)) =
      (wordModifier? word rest).map (ModifierStep.move distance) := by
  unfold wordModifier?
  by_cases isIdent : word.isIdent = true
  · simp only [CodeToken.isIdent_move, CodeToken.text_move, isIdent, ↓reduceIte, Option.map_map]
    rfl
  · simp [isIdent]

theorem modifier?_move (code : List CodeToken) :
    modifier? (code.map (CodeToken.move distance)) =
      moved distance (Option.map (ModifierStep.move distance)) (modifier? code) := by
  cases code with
  | nil => rfl
  | cons first rest =>
      simp only [modifier?, List.map_cons, CodeToken.isPunct_move, annotation?_move]
      split
      · rfl
      · rcases rest with _ | ⟨dash, _ | ⟨word, after⟩⟩
        · exact congrArg Except.ok (wordModifier?_move distance first [])
        · exact congrArg Except.ok (wordModifier?_move distance first [dash])
        · simp only [List.map_cons, CodeToken.isPunct_move, CodeToken.isWord_move]
          split
          · rfl
          · exact congrArg Except.ok (wordModifier?_move distance first (dash :: word :: after))

theorem modifiers_of_error {code : List CodeToken} {error : ParseError}
    (found : modifier? code = .error error) : modifiers code = .error error := by
  rw [modifiers]
  split <;> rename_i same <;> rw [found] at same <;> cases same
  rfl

theorem modifiers_of_none {code : List CodeToken} (found : modifier? code = .ok none) :
    modifiers code = .ok ⟨{}, [], code⟩ := by
  rw [modifiers]
  split <;> rename_i same <;> rw [found] at same <;> cases same

theorem modifiers_of_some {code : List CodeToken} {step : ModifierStep}
    (found : modifier? code = .ok (some step)) :
    modifiers code = (modifiers step.rest).map fun run =>
      { modifiers :=
          { keywords := step.add.keywords ++ run.modifiers.keywords
            annotations := step.add.annotations ++ run.modifiers.annotations }
        taken := step.taken ++ run.taken
        rest := run.rest } := by
  rw [modifiers]
  split <;> rename_i same <;> rw [found] at same <;> cases same
  cases modifiers step.rest <;> rfl

theorem modifiers_move (code : List CodeToken) :
    modifiers (code.map (CodeToken.move distance)) =
      moved distance (ModifierRun.move distance) (modifiers code) := by
  have one := modifier?_move distance code
  fun_induction modifiers code with
  | case1 code error found =>
      rw [found] at one
      exact modifiers_of_error one
  | case2 code found =>
      rw [found] at one
      exact modifiers_of_none one
  | case3 code step found error failed ih =>
      rw [found] at one
      rw [modifiers_of_some one, ModifierStep.move, ih (modifier?_move distance _), failed]
      rfl
  | case4 code step found inner more ih =>
      rw [found] at one
      rw [modifiers_of_some one, ModifierStep.move, ih (modifier?_move distance _), more]
      simp [ModifierRun.move, Except.map]

@[simp] theorem expr_move (code : List CodeToken) :
    expr (code.map (CodeToken.move distance)) = expr code := by
  rcases code with _ | ⟨first, _ | ⟨second, _ | ⟨third, _ | ⟨fourth, rest⟩⟩⟩⟩ <;>
    simp [expr, List.flatMap_map]

@[simp] theorem localDeclaration?_move (code : List CodeToken) :
    localDeclaration? (code.map (CodeToken.move distance)) = localDeclaration? code := by
  unfold localDeclaration?
  rw [modifiers_move]
  cases modifiers code with
  | error error => rfl
  | ok run =>
      obtain ⟨found, taken, rest⟩ := run
      simp only [moved_ok, ModifierRun.move, ← List.map_reverse]
      rcases rest with _ | ⟨first, _ | ⟨second, more⟩⟩
      · rfl
      · rfl
      · generalize isReverse : (first :: second :: more).reverse = reversed
        rcases reversed with _ | ⟨name, _ | ⟨last, earlier⟩⟩
        · simp
        · simp
        · simp only [List.map_cons, CodeToken.isIdent_move, CodeToken.text_move,
            CodeToken.isPunct_move, List.head?_map, Option.any_map]
          rw [← List.map_cons, ← List.map_cons, ← List.map_dropLast, text_move]

theorem splitAssign?_move (depth : Nat) (before code : List CodeToken) :
    splitAssign? depth (before.map (CodeToken.move distance)) (code.map (CodeToken.move distance)) =
      (splitAssign? depth before code).map fun split =>
        ⟨split.target.map (CodeToken.move distance), split.op,
          split.value.map (CodeToken.move distance)⟩ := by
  fun_induction splitAssign? depth before code <;>
    simp_all [splitAssign?, opensBracket, closesBracket]

@[simp] theorem constructorCall?_move (code : List CodeToken) :
    constructorCall? (code.map (CodeToken.move distance)) = constructorCall? code := by
  rcases code with _ | ⟨word, _ | ⟨paren, rest⟩⟩
  · rfl
  · rfl
  · simp only [constructorCall?, List.map_cons, CodeToken.isPunct_move, CodeToken.isWord_move,
      close?_move]
    cases close? '(' ')' 0 rest with
    | none => rfl
    | some arguments =>
        simp only [Option.map_some, Enclosed.move, Option.bind_eq_bind, Option.bind_some,
          List.isEmpty_map, text_move]
        rfl

theorem leadingStep?_move (code : List CodeToken) :
    leadingStep? (code.map (CodeToken.move distance)) =
      (leadingStep? code).map fun step => (step.1, step.2.map (CodeToken.move distance)) := by
  rcases code with _ | ⟨first, _ | ⟨second, rest⟩⟩
  · rfl
  · rfl
  · simp [leadingStep?, Function.comp_def]

theorem trailingStep?_move (code : List CodeToken) :
    trailingStep? (code.map (CodeToken.move distance)) =
      (trailingStep? code).map fun step => (step.1, step.2.map (CodeToken.move distance)) := by
  unfold trailingStep?
  rw [← List.map_reverse]
  rcases code.reverse with _ | ⟨last, _ | ⟨previous, _ | ⟨target, rest⟩⟩⟩
  · rfl
  · rfl
  · rfl
  · simp [Function.comp_def]

@[simp] theorem assignment?_move (code : List CodeToken) (written : Text) :
    assignment? (code.map (CodeToken.move distance)) written = assignment? code written := by
  unfold assignment?
  rw [show ([] : List CodeToken) = [].map (CodeToken.move distance) from rfl, splitAssign?_move]
  simp [Function.comp_def]

end Code

def Piece.move (distance : Nat) (piece : Piece) : Piece where
  first := piece.first.move distance
  rest := piece.rest.map (CodeToken.move distance)

def Pieces.move (distance : Nat) (cut : Pieces) : Pieces where
  here := cut.here.map (List.map (CodeToken.move distance))
  pieces := cut.pieces.map (Piece.move distance)
  unclosed := cut.unclosed.map (· + distance)

def Code.MemberSplit.move (distance : Nat) (split : Code.MemberSplit) : Code.MemberSplit where
  form := split.form
  before := split.before.map (CodeToken.move distance)
  stop := split.stop.move distance
  after := split.after.map (CodeToken.move distance)

namespace Piece

variable (distance : Nat) (piece : Piece)

@[simp] theorem tokens_move :
    (piece.move distance).tokens = piece.tokens.map (CodeToken.move distance) := rfl

@[simp] theorem last_move : (piece.move distance).last = piece.last.move distance := by
  simp [last, move, List.getLastD_eq_getLast?]

@[simp] theorem isEmpty_move : (piece.move distance).isEmpty = piece.isEmpty := by
  simp [isEmpty, move]

@[simp] theorem text_move : (piece.move distance).text = piece.text := by
  simp only [text, tokens_move, Code.text_move]

theorem trimmed_move :
    (piece.move distance).trimmed = piece.trimmed.map (CodeToken.move distance) := by
  simp only [trimmed, last_move, CodeToken.isPunct_move, tokens_move, ← List.map_dropLast]
  split <;> rfl

end Piece

namespace Code

variable (distance : Nat)

@[simp] theorem statement_move (piece : Piece) :
    statement (piece.move distance) = statement piece := by
  unfold statement
  rw [Piece.text_move, Piece.trimmed_move]
  rcases piece.trimmed with _ | ⟨first, rest⟩
  · rfl
  · simp only [List.map_cons, CodeToken.isWord_move, List.isEmpty_map, expr_move]
    rw [← List.map_cons, constructorCall?_move, leadingStep?_move, assignment?_move,
      trailingStep?_move, localDeclaration?_move]
    cases constructorCall? (first :: rest) <;> cases leadingStep? (first :: rest) <;>
      cases trailingStep? (first :: rest) <;>
      simp only [Option.map_none, Option.map_some, expr_move]

/-- Two scans that stand alike, where the second one reads code that was moved. -/
structure ScanMoved (scan other : PieceScan) : Prop where
  parens : other.parens = scan.parens
  isOpen : other.isOpen = scan.isOpen
  braces : other.braces = scan.braces
  opened : scan.braces ≠ 0 → other.opened = scan.opened + distance

structure FixedRule (rule : PieceRule) : Prop where
  opens : ∀ code, rule.opens (CodeToken.move distance code) = rule.opens code
  keepsOpen : ∀ code, rule.keepsOpen (CodeToken.move distance code) = rule.keepsOpen code
  chains : ∀ code, rule.chains (CodeToken.move distance code) = rule.chains code

theorem fixed_statementRule : FixedRule distance statementRule :=
  ⟨fun _ => rfl, fun _ => rfl, fun _ => rfl⟩

variable {distance}

theorem step_moved {rule : PieceRule} (fixed : FixedRule distance rule) {scan other : PieceScan}
    (alike : ScanMoved distance scan other) (code : CodeToken) (next : Option CodeToken) :
    Option.Rel (ScanMoved distance) (scan.step rule code next)
      (other.step rule (code.move distance) (next.map (CodeToken.move distance))) := by
  obtain ⟨parens, isOpen, braces, opened⟩ := scan
  obtain ⟨otherParens, otherOpen, otherBraces, otherOpened⟩ := other
  obtain ⟨rfl, rfl, rfl, offset⟩ := alike
  dsimp only at offset
  have chains : (next.map (CodeToken.move distance)).any rule.chains = next.any rule.chains := by
    cases next with
    | none => rfl
    | some next => exact fixed.chains next
  unfold PieceScan.step
  simp only [CodeToken.isPunct_move, chains, CodeToken.start_move, fixed.keepsOpen]
  cases otherBraces with
  | zero =>
      dsimp only
      split_ifs
      · exact .some ⟨rfl, rfl, rfl, fun nonzero => absurd rfl nonzero⟩
      · exact .some ⟨rfl, rfl, rfl, fun nonzero => absurd rfl nonzero⟩
      · exact .some ⟨rfl, rfl, rfl, fun nonzero => absurd rfl nonzero⟩
      · exact .none
      · exact .some ⟨rfl, rfl, rfl, fun _ => rfl⟩
      · exact .some ⟨rfl, rfl, rfl, fun nonzero => absurd rfl nonzero⟩
  | succ depth =>
      have same := offset (Nat.succ_ne_zero depth)
      dsimp only
      split_ifs
      · exact .some ⟨rfl, rfl, rfl, fun _ => same⟩
      · exact .none
      · exact .some ⟨rfl, rfl, rfl, fun _ => same⟩
      · exact .some ⟨rfl, rfl, rfl, fun _ => same⟩

variable (distance)

theorem piecesFrom_move {rule : PieceRule} (fixed : FixedRule distance rule)
    {scan other : Option PieceScan} (alike : Option.Rel (ScanMoved distance) scan other)
    (code : List CodeToken) :
    piecesFrom rule other (code.map (CodeToken.move distance)) =
      (piecesFrom rule scan code).move distance := by
  induction code generalizing scan other with
  | nil =>
      cases alike with
      | none => rfl
      | @some scan other alike =>
          by_cases outside : scan.braces = 0
          · simp [piecesFrom, alike.braces, outside, Pieces.move]
          · simp [piecesFrom, alike.braces, outside, alike.opened outside, Pieces.move]
  | cons first rest ih =>
      cases alike with
      | none =>
          have start : ScanMoved distance (PieceScan.start rule first)
              (PieceScan.start rule (first.move distance)) :=
            ⟨rfl, fixed.opens first, rfl, fun nonzero => absurd rfl nonzero⟩
          have after := ih (step_moved fixed start first rest.head?)
          simp only [List.map_cons, piecesFrom, List.head?_map, after]
          generalize piecesFrom rule _ rest = cut
          obtain ⟨here, pieces, unclosed⟩ := cut
          cases here <;> simp [Pieces.move, Piece.move]
      | some alike =>
          have after := ih (step_moved fixed alike first rest.head?)
          simp only [List.map_cons, piecesFrom, List.head?_map, after]
          generalize piecesFrom rule _ rest = cut
          obtain ⟨here, pieces, unclosed⟩ := cut
          cases here <;> simp [Pieces.move]

theorem body_move (block : List CodeToken) :
    body (block.map (CodeToken.move distance)) = moved distance id (body block) := by
  unfold body
  rw [← List.map_tail, ← List.map_dropLast, pieces, pieces,
    piecesFrom_move distance (fixed_statementRule distance) .none, text_move]
  generalize piecesFrom statementRule none block.tail.dropLast = cut
  obtain ⟨here, pieces, unclosed⟩ := cut
  cases unclosed with
  | none => simp [Pieces.move, Function.comp_def]
  | some offset => rfl

theorem stripDims_move (code : List CodeToken) :
    stripDims (code.map (CodeToken.move distance)) =
      ((stripDims code).1, (stripDims code).2.map (CodeToken.move distance)) := by
  fun_induction stripDims code with
  | case1 right left token rest brackets dims remaining split ih => simp_all [stripDims]
  | case2 right left token rest plain => simp_all [stripDims]
  | case3 code short =>
      rcases code with _ | ⟨first, _ | ⟨second, _ | ⟨third, rest⟩⟩⟩
      · rfl
      · rfl
      · rfl
      · exact absurd rfl (short first second third rest)

theorem splitParams_move (depth : Nat) (code : List CodeToken) :
    splitParams depth (code.map (CodeToken.move distance)) =
      (splitParams depth code).map (List.map (CodeToken.move distance)) := by
  induction code generalizing depth with
  | nil => rfl
  | cons first rest ih =>
      simp only [List.map_cons, splitParams, opensBracket, closesBracket,
        CodeToken.isPunct_move, ih]
      split_ifs
      · cases splitParams (depth + 1) rest <;> rfl
      · cases splitParams (depth - 1) rest <;> rfl
      · rfl
      · cases splitParams depth rest <;> rfl

theorem param_move (code : List CodeToken) :
    param (code.map (CodeToken.move distance)) = moved distance id (param code) := by
  unfold param
  rw [modifiers_move]
  cases modifiers code with
  | error error => rfl
  | ok run =>
      simp only [moved_ok, ModifierRun.move, ← List.map_reverse, stripDims_move, text_move]
      rcases (stripDims run.rest.reverse).2 with _ | ⟨name, _ | ⟨last, rest⟩⟩
      · rfl
      · rfl
      · simp only [List.map_cons, CodeToken.isIdent_move, CodeToken.text_move]
        rw [← List.map_cons, ← List.map_reverse, text_move]
        rfl

theorem params_move (code : List CodeToken) :
    params (code.map (CodeToken.move distance)) = moved distance id (params code) := by
  unfold params
  rw [splitParams_move, List.filter_map]
  have same : (fun part : List CodeToken => !part.isEmpty) ∘ List.map (CodeToken.move distance) =
      fun part => !part.isEmpty := by
    funext part
    simp
  rw [same]
  generalize (splitParams 0 code).filter (fun part => !part.isEmpty) = parts
  induction parts with
  | nil => rfl
  | cons part parts ih =>
      rw [List.map_cons, List.mapM_cons, List.mapM_cons, param_move, ih]
      cases param part with
      | error error => rfl
      | ok found => cases parts.mapM param <;> rfl

theorem splitMember?_move (angles : Nat) (code : List CodeToken) :
    splitMember? angles (code.map (CodeToken.move distance)) =
      (splitMember? angles code).map (MemberSplit.move distance) := by
  induction code generalizing angles with
  | nil => rfl
  | cons first rest ih =>
      simp only [List.map_cons, splitMember?, CodeToken.isPunct_move, CodeToken.assign_move, ih]
      have onward : ∀ found : Option MemberSplit,
          (found.map (MemberSplit.move distance)).map (fun split : MemberSplit =>
            { split with before := first.move distance :: split.before }) =
          (found.map (fun split : MemberSplit =>
            { split with before := first :: split.before })).map (MemberSplit.move distance) := by
        intro found
        cases found <;> rfl
      split_ifs
      · exact onward _
      · exact onward _
      · exact onward _
      · rfl
      · rfl
      · rfl
      · exact onward _

theorem separators_move (depth angles index : Nat) (previous : CodeToken) (code : List CodeToken) :
    separators depth angles index (previous.move distance) (code.map (CodeToken.move distance)) =
      (separators depth angles index previous code).map fun entry =>
        (entry.1, entry.2.move distance) := by
  induction code generalizing depth angles index previous with
  | nil => rfl
  | cons first rest ih =>
      simp only [List.map_cons, separators, opensBracket, closesBracket, CodeToken.isPunct_move,
        CodeToken.isIdent_move, CodeToken.arrow_move, ih]
      split_ifs <;> simp_all

theorem fieldSeparators_move (stop : CodeToken) (after : List CodeToken) :
    fieldSeparators (stop.move distance) (after.map (CodeToken.move distance)) =
      (fieldSeparators stop after).map fun entry => (entry.1, entry.2.move distance) := by
  simp only [fieldSeparators, CodeToken.isPunct_move, separators_move, List.map_append]
  by_cases isOwn : (stop.isPunct ';' || stop.isPunct ',') = true <;> simp [isOwn]

@[simp] theorem fieldInitializer?_move (split : MemberSplit) :
    fieldInitializer? (split.move distance) = fieldInitializer? split := by
  simp only [fieldInitializer?, MemberSplit.move, CodeToken.isPunct_move, fieldSeparators_move]
  rcases fieldSeparators split.stop split.after with _ | ⟨separator, others⟩
  · simp only [List.map_nil, List.isEmpty_map, text_move]
  · simp only [List.map_cons, ← List.map_take, List.isEmpty_map, text_move]

theorem field?_move (split : MemberSplit) (modifiers : Modifiers) (position : Nat)
    (source other : Excerpt) :
    (field? (split.move distance) modifiers position other).map
      (fun decl => (Node.field decl).gist) =
      (field? split modifiers position source).map (fun decl => (Node.field decl).gist) := by
  have commas : ((fieldSeparators split.stop split.after).map fun entry =>
      (entry.1, entry.2.move distance)).filter (·.2.isPunct ',') =
      ((fieldSeparators split.stop split.after).filter (·.2.isPunct ',')).map fun entry =>
        (entry.1, entry.2.move distance) := by
    rw [List.filter_map]
    rfl
  unfold field?
  rw [fieldInitializer?_move]
  simp only [MemberSplit.move, ← List.map_reverse, stripDims_move, fieldSeparators_move, commas,
    List.length_map]
  generalize stripDims split.before.reverse = stripped
  obtain ⟨dims, remaining⟩ := stripped
  rcases remaining with _ | ⟨name, _ | ⟨last, rest⟩⟩
  · rfl
  · rfl
  · simp only [List.map_cons, CodeToken.isIdent_move, CodeToken.text_move]
    rw [← List.map_cons, ← List.map_reverse, text_move]
    by_cases isIdent : name.isIdent = true
    · simp only [isIdent, ↓reduceIte]
      rfl
    · simp only [isIdent, Bool.false_eq_true, ↓reduceIte]

theorem dropWhile_move (c : Char) (code : List CodeToken) :
    (code.map (CodeToken.move distance)).dropWhile (fun token => !token.isPunct c) =
      (code.dropWhile fun token => !token.isPunct c).map (CodeToken.move distance) := by
  rw [List.dropWhile_map]
  rfl

theorem block?_move (last : CodeToken) (code : List CodeToken) :
    block? (last.move distance) (code.map (CodeToken.move distance)) =
      (block? last code).map (List.map (CodeToken.move distance)) := by
  unfold block?
  rw [dropWhile_move]
  generalize code.dropWhile (fun token => !token.isPunct '{') = block
  rcases block with _ | ⟨opening, rest⟩
  · rfl
  · by_cases isClosing : last.isPunct '}' = true <;> simp [isClosing]

theorem typeParams?_move (code : List CodeToken) :
    typeParams? (code.map (CodeToken.move distance)) =
      moved distance (fun found => (found.1, found.2.map (CodeToken.move distance)))
        (typeParams? code) := by
  rcases code with _ | ⟨angle, rest⟩
  · rfl
  · simp only [List.map_cons, typeParams?, CodeToken.isPunct_move, close_move]
    split_ifs
    · cases close '<' '>' angle rest with
      | error error => rfl
      | ok params =>
          have whole : text (angle.move distance :: (params.move distance).inside ++
              [(params.move distance).closing]) =
                text (angle :: params.inside ++ [params.closing]) := by
            rw [← text_move distance (angle :: params.inside ++ [params.closing])]
            simp [Enclosed.move]
          simp only [moved_ok, whole]
          rfl
    · rfl

theorem constructorNode_move (name paren : CodeToken) (rest : List CodeToken) (last : CodeToken)
    (typeParams : Option Text) (modifiers : Modifiers) (source other : Excerpt) :
    (constructorNode (name.move distance) (paren.move distance)
        (rest.map (CodeToken.move distance)) (last.move distance) typeParams modifiers other).map
        Node.gist =
      moved distance Node.gist
        (constructorNode name paren rest last typeParams modifiers source) := by
  unfold constructorNode
  rw [close_move]
  cases close '(' ')' paren rest with
  | error error => rfl
  | ok enclosed =>
      simp only [moved_ok, Enclosed.move, bind, Except.bind, params_move, block?_move]
      cases params enclosed.inside with
      | error error => rfl
      | ok params =>
          cases block? last enclosed.rest with
          | none => rfl
          | some block =>
              simp only [moved_ok, Option.map_some, body_move]
              cases body block <;> rfl

theorem methodNode_move (split : MemberSplit) (last : CodeToken) (typeParams : Option Text)
    (modifiers : Modifiers) (source other : Excerpt) :
    (methodNode (split.move distance) (last.move distance) typeParams modifiers other).map
        Node.gist =
      moved distance Node.gist (methodNode split last typeParams modifiers source) := by
  unfold methodNode
  simp only [MemberSplit.move, ← List.map_reverse]
  rcases split.before.reverse with _ | ⟨name, _ | ⟨final, rest⟩⟩
  · rfl
  · rfl
  · simp only [List.map_cons, CodeToken.isIdent_move, CodeToken.text_move]
    rw [← List.map_cons, ← List.map_reverse, text_move, close_move]
    by_cases isIdent : name.isIdent = true
    · simp only [isIdent, ↓reduceIte]
      cases close '(' ')' split.stop split.after with
      | error error => rfl
      | ok enclosed =>
          simp only [moved_ok, Enclosed.move, bind, Except.bind, params_move, block?_move]
          cases params enclosed.inside with
          | error error => rfl
          | ok params =>
              cases block? last enclosed.rest with
              | none => rfl
              | some block =>
                  simp only [moved_ok, Option.map_some, body_move]
                  cases body block <;> rfl
    · simp only [isIdent, Bool.false_eq_true, ↓reduceIte]
      rfl

theorem declarationNode_move (position : Nat) (typeParams : Option Text) (found : Modifiers)
    (last : CodeToken) (source other : Excerpt) (code : List CodeToken) :
    (declarationNode position typeParams found (last.move distance) other
        (code.map (CodeToken.move distance))).map Node.gist =
      moved distance Node.gist (declarationNode position typeParams found last source code) := by
  unfold declarationNode
  rw [splitMember?_move]
  cases splitMember? 0 code with
  | none => rfl
  | some split =>
      have form : (split.move distance).form = split.form := rfl
      simp only [Option.map_some, form]
      cases split.form with
      | method => exact methodNode_move distance split last typeParams found source other
      | field =>
          have fields := field?_move distance split found position source other
          generalize field? (split.move distance) found position other = moved at fields ⊢
          generalize field? split found position source = own at fields ⊢
          cases moved with
          | none =>
              cases own with
              | none => rfl
              | some decl => cases fields
          | some decl =>
              cases own with
              | none => cases fields
              | some decl => exact congrArg Except.ok (Option.some.inj fields)

theorem namedNode_move (className : Text) (position : Nat) (typeParams : Option Text)
    (found : Modifiers) (last : CodeToken) (source other : Excerpt) (code : List CodeToken) :
    (namedNode className position typeParams found (last.move distance) other
        (code.map (CodeToken.move distance))).map Node.gist =
      moved distance Node.gist
        (namedNode className position typeParams found last source code) := by
  have remaining := declarationNode_move distance position typeParams found last source other code
  rcases code with _ | ⟨name, _ | ⟨paren, after⟩⟩
  · exact remaining
  · exact remaining
  · simp only [List.map_cons, namedNode, CodeToken.isIdent_move, CodeToken.text_move,
      CodeToken.isPunct_move]
    split_ifs
    · exact constructorNode_move distance name paren after last typeParams found source other
    · exact remaining

theorem memberNode_move (className : Text) (position : Nat) (run : ModifierRun) (last : CodeToken)
    (source other : Excerpt) :
    (memberNode className position (run.move distance) (last.move distance) other).map Node.gist =
      moved distance Node.gist (memberNode className position run last source) := by
  obtain ⟨found, taken, rest⟩ := run
  rcases rest with _ | ⟨first, rest⟩
  · rfl
  · simp only [ModifierRun.move, List.map_cons, memberNode_cons, CodeToken.isPunct_move]
    rw [← List.map_cons, body_move, typeParams?_move]
    by_cases isBrace : first.isPunct '{' = true
    · simp only [isBrace, ↓reduceIte]
      cases body (first :: rest) <;> rfl
    · simp only [isBrace, Bool.false_eq_true, ↓reduceIte]
      cases typeParams? (first :: rest) with
      | error error => rfl
      | ok parts =>
          exact namedNode_move distance className position parts.1 found last source other parts.2

theorem typeKeyword?_move (code : List CodeToken) :
    typeKeyword? (code.map (CodeToken.move distance)) =
      (typeKeyword? code).map fun found => (found.1, found.2.map (CodeToken.move distance)) := by
  rcases code with _ | ⟨first, rest⟩
  · rfl
  · rcases rest with _ | ⟨name, _ | ⟨next, after⟩⟩ <;>
      simp only [List.map_cons, List.map_nil, typeKeyword?, CodeToken.isPunct_move,
        CodeToken.isWord_move, CodeToken.isIdent_move, List.head?_cons, List.head?_nil,
        Option.any_some, Option.any_none, List.tail_cons, List.tail_nil, apply_ite (Option.map _),
        Option.map_some, Option.map_none] <;> rfl

theorem headerClause?_move (keyword : String) (code : List CodeToken) :
    headerClause? keyword (code.map (CodeToken.move distance)) = headerClause? keyword code := by
  have after : ∀ angles (code : List CodeToken),
      afterClauseKeyword? keyword angles (code.map (CodeToken.move distance)) =
        (afterClauseKeyword? keyword angles code).map (List.map (CodeToken.move distance)) := by
    intro angles code
    fun_induction afterClauseKeyword? keyword angles code <;>
      simp_all [afterClauseKeyword?, isClauseKeyword]
  have clause : ∀ angles (code : List CodeToken),
      clauseTokens angles (code.map (CodeToken.move distance)) =
        (clauseTokens angles code).map (CodeToken.move distance) := by
    intro angles code
    fun_induction clauseTokens angles code <;> simp_all [clauseTokens, isClauseKeyword]
  unfold headerClause?
  rw [after]
  cases afterClauseKeyword? keyword 0 code with
  | none => rfl
  | some rest =>
      simp only [Option.map_some, clause]
      rcases clauseTokens 0 rest with _ | ⟨first, others⟩
      · rfl
      · simp only [List.map_cons]
        rw [← List.map_cons, text_move]

def textualType? : TypeShape → Option (TextualKind × Option Text)
  | .textual kind name => some (kind, name)
  | .classBody _ => none

theorem classShape_move (run : ModifierRun) (code : List CodeToken) (last : CodeToken) :
    (classShape (run.move distance) (code.map (CodeToken.move distance)) (last.move distance)).map
        textualType? =
      moved distance textualType? (classShape run code last) := by
  rcases code with _ | ⟨name, rest⟩
  · rfl
  · simp only [List.map_cons, classShape, CodeToken.isIdent_move, CodeToken.text_move,
      typeParams?_move]
    by_cases isIdent : name.isIdent = true
    · simp only [isIdent, ↓reduceIte]
      cases typeParams? rest with
      | error error => rfl
      | ok parts =>
          obtain ⟨typeParams, remaining⟩ := parts
          simp only [moved_ok, dropWhile_move]
          generalize remaining.dropWhile (fun token => !token.isPunct '{') = block
          rcases block with _ | ⟨opening, block⟩
          · rfl
          · by_cases isClosing : last.isPunct '}' =
              true <;> simp [isClosing, textualType?, Except.map]
    · simp only [isIdent, Bool.false_eq_true, ↓reduceIte]
      rfl

theorem typeShape_move (run : ModifierRun) (last : CodeToken) :
    (typeShape (run.move distance) (last.move distance)).map textualType? =
      moved distance textualType? (typeShape run last) := by
  unfold typeShape
  have keyword := typeKeyword?_move distance run.rest
  have rest : (run.move distance).rest = run.rest.map (CodeToken.move distance) := rfl
  rw [rest, keyword]
  cases typeKeyword? run.rest with
  | none => rfl
  | some found =>
      obtain ⟨kind, code⟩ := found
      have name : leadingName? (code.map (CodeToken.move distance)) = leadingName? code := by
        cases code with
        | nil => rfl
        | cons first rest => by_cases isIdent : first.isIdent =
            true <;> simp [leadingName?, Option.filter, isIdent]
      cases kind <;> simp only [Option.map_some, name] <;>
        first | exact classShape_move distance run code last | rfl

/-- What a member says, or nothing if it is a class with a body. -/
def memberGist? : MemberShape → Option Node
  | .node node => some node.gist
  | .classBody _ => none

/-- A member that stands elsewhere says the same. -/
theorem memberShape_move (className : Text) (position : Nat) (piece : Piece)
    (source other : Excerpt) :
    (memberShape className position (piece.move distance) other).map memberGist? =
      moved distance memberGist? (memberShape className position piece source) := by
  unfold memberShape
  rw [Piece.isEmpty_move, Piece.tokens_move, modifiers_move, Piece.last_move]
  by_cases isEmpty : piece.isEmpty = true
  · simp only [isEmpty, ↓reduceIte]
    rfl
  · simp only [isEmpty, Bool.false_eq_true, ↓reduceIte]
    cases modifiers piece.tokens with
    | error error => rfl
    | ok run =>
        have keyword := typeKeyword?_move distance run.rest
        have rest : (run.move distance).rest = run.rest.map (CodeToken.move distance) := rfl
        simp only [moved_ok, rest, keyword]
        cases typeKeyword? run.rest with
        | none =>
            have node := memberNode_move distance className position run piece.last source other
            simp only [Option.map_none]
            generalize memberNode className position run piece.last source = own at node ⊢
            generalize memberNode className position (run.move distance) (piece.last.move distance)
              other = moved at node ⊢
            cases own <;> cases moved <;> simp_all [Except.map, memberGist?]
        | some found =>
            have shape := typeShape_move distance run piece.last
            simp only [Option.map_some]
            generalize typeShape run piece.last = own at shape ⊢
            generalize typeShape (run.move distance) (piece.last.move distance) = moved at shape ⊢
            rcases own with error | ⟨kind, name⟩ | inner <;>
              rcases moved with error' | ⟨kind', name'⟩ | inner' <;>
              simp_all [Except.map, memberGist?, textualType?, textual, Node.gist]

end Code
end JavaRecords
