import JavaRecords.Parse.Unit
import JavaRecords.Proofs.Indexed.Layout
import JavaRecords.Proofs.Indexed.Members

set_option autoImplicit false

namespace JavaRecords.Indexed

open Code (flat)

/-- A class with a body: what its header says, and the place where its body opens. -/
structure ClassHeader where
  name : Text
  typeParams : Option Text
  modifiers : Modifiers
  headerPrefix : Text
  superclass : Option Text
  interfaces : Option Text
  permits : Option Text
  /-- The comments in the header and behind its opening brace. -/
  comments : List Comment
  /-- The byte offset where the first member can start. -/
  start : Nat
  opening : Nat

inductive Header where
  | textual (kind : TextualKind) (name : Option Text)
  | classBody (header : ClassHeader)

namespace Tape

variable (tape : Tape)

def typeKeyword (i : Nat) : Option (TextualKind × Nat) :=
  if tape.isPunct i '@' && tape.isWord (i + 1) "interface" then some (.annotationType, i + 2)
  else if tape.isWord i "class" then some (.classType, i + 1)
  else if tape.isWord i "interface" then some (.interfaceType, i + 1)
  else if tape.isWord i "enum" then some (.enumType, i + 1)
  else if tape.isWord i "record" && tape.isIdent (i + 1)
      && (tape.isPunct (i + 2) '(' || tape.isPunct (i + 2) '<') then some (.recordType, i + 1)
  else none

/-- Whether the token at a place starts a clause of a class header. -/
def isClauseKeyword (k : Nat) : Bool :=
  tape.isWord k "extends" || tape.isWord k "implements" || tape.isWord k "permits"

def clauseText (start limit : Nat) : Run (Option Text) :=
  if start < limit then do
    let last ← sub limit 1
    let text ← tape.spanText start last
    return some text
  else return none

/-- The clause of a class header that `keyword` starts. `start` is where it starts, if it is under
way at the place `k`. -/
def clauseFrom (limit : Nat) (keyword : String) (angles : Nat) (start : Option Nat) (k : Nat) :
    Run (Option Text) :=
  if _ : k < limit then
    if tape.isPunct k '<' then clauseFrom limit keyword (angles + 1) start (k + 1)
    else if tape.isPunct k '>' then clauseFrom limit keyword (angles - 1) start (k + 1)
    else if angles = 0 && tape.isClauseKeyword k then
      match start with
      | some first => tape.clauseText first k
      | none =>
          clauseFrom limit keyword angles
            (if tape.isWord k keyword then some (k + 1) else none) (k + 1)
    else clauseFrom limit keyword angles start (k + 1)
  else match start with
    | some first => tape.clauseText first limit
    | none => return none
termination_by limit - k

/-- The identifier at a place. -/
def leadingName (i : Nat) : Run (Option Text) :=
  if tape.isIdent i then (tape.text i).map some else return none

/-- The header of the class with the token `first`, the keyword at the place `keyword` and the body
that opens at the place `opening`. -/
def classHeader (first keyword clauses opening : Nat) (name : Text) (typeParams : Option Text)
    (modifiers : Modifiers) : Run ClassHeader := do
  let start ← tape.token first
  let word ← tape.token keyword
  let brace ← tape.token opening
  let next ← tape.token (opening + 1)
  let headerPrefix ← cut tape.source start.start word.start
  let (comments, membersStart) ← tape.trailing brace.stop next.start
  let superclass ← tape.clauseFrom opening "extends" 0 none clauses
  let interfaces ← tape.clauseFrom opening "implements" 0 none clauses
  let permits ← tape.clauseFrom opening "permits" 0 none clauses
  return { name, typeParams, modifiers, headerPrefix, superclass, interfaces, permits
           comments := tape.commentsBetween word.start brace.stop ++ comments
           start := membersStart
           opening }

def namedClass (first keyword name last : Nat) (modifiers : Modifiers) : Run Header :=
  if tape.isIdent name then do
    let word ← tape.text name
    let (typeParams, clauses) ← tape.typeParams (last + 1) (name + 1)
    match tape.blockStart last clauses with
    | none => return .textual .classType (some word)
    | some opening =>
        let header ← tape.classHeader first keyword clauses opening word typeParams modifiers
        return .classBody header
  else return .textual .classType none

def header (first last : Nat) : Run Header := do
  let (modifiers, keyword) ← tape.modifiers (last + 1) first
  match tape.typeKeyword keyword with
  | none => return .textual .unknown none
  | some (kind, name) =>
      if kind = .classType then tape.namedClass first keyword name last modifiers
      else do
        let word ← tape.leadingName name
        return .textual kind word

end Tape

def clause? : List CodeToken → Option Text
  | [] => none
  | first :: rest => some (Code.text (first :: rest))

theorem headerClause?_eq (keyword : String) (code : List CodeToken) :
    Code.headerClause? keyword code = (Code.afterClauseKeyword? keyword 0 code).bind fun rest =>
      clause? (Code.clauseTokens 0 rest) := by
  rw [Code.headerClause?]
  cases Code.afterClauseKeyword? keyword 0 code with
  | none => rfl
  | some rest =>
      rw [Option.bind_some]
      dsimp only
      cases Code.clauseTokens 0 rest <;> rfl

namespace Tape.Holds

variable {tape : Tape} {all part front rest : List CodeToken} {first last : CodeToken}
  {piece : Piece} {i j k : Nat} (holds : tape.Holds all)
include holds

theorem clauseText_eq (stretch : Stretch all i part j) :
    tape.clauseText i j = .ok (clause? part) := by
  rw [Tape.clauseText]
  cases part with
  | nil =>
      rw [if_neg (by simp [stretch.eq_of_nil])]
      rfl
  | cons first rest =>
      have after := stretch.lt
      rw [if_pos after, sub_of_le (by omega), ok_bind,
        holds.spanText_eq stretch (List.cons_ne_nil _ _)]
      rfl

theorem isClauseKeyword_eq (here : all[k]? = some first) :
    tape.isClauseKeyword k = Code.isClauseKeyword first := by
  simp only [Tape.isClauseKeyword, holds.isWord_eq here, Code.isClauseKeyword]

/-- A clause under way goes up to the next keyword. -/
theorem clauseFrom_some (keyword : String) (angles : Nat) (front : List CodeToken)
    (stretch : Stretch all i (front ++ part) j) :
    tape.clauseFrom j keyword angles (some i) (i + front.length) =
      .ok (clause? (front ++ Code.clauseTokens angles part)) := by
  induction part generalizing front angles with
  | nil =>
      rw [Tape.clauseFrom, dif_neg (by simp [stretch.length])]
      exact holds.clauseText_eq stretch
  | cons code rest ih =>
      have here := stretch.append.2.head
      have onward : ∀ angles, tape.clauseFrom j keyword angles (some i) (i + front.length + 1) =
          .ok (clause? (front ++ code :: Code.clauseTokens angles rest)) := by
        intro angles
        have next := ih angles (front ++ [code]) (by simpa using stretch)
        rwa [List.length_append, List.length_singleton, List.append_assoc,
          List.singleton_append] at next
      rw [Tape.clauseFrom, dif_pos stretch.append.2.lt, Code.clauseTokens, holds.isPunct_eq here,
        holds.isPunct_eq here, holds.isClauseKeyword_eq here]
      split
      · exact onward _
      split
      · exact onward _
      split
      · rw [List.append_nil]
        exact holds.clauseText_eq stretch.append.1
      · exact onward _

theorem clauseFrom_none (keyword : String) (angles : Nat) (stretch : Stretch all k part j) :
    tape.clauseFrom j keyword angles none k =
      .ok ((Code.afterClauseKeyword? keyword angles part).bind fun rest =>
        clause? (Code.clauseTokens 0 rest)) := by
  induction part generalizing k angles with
  | nil =>
      rw [Tape.clauseFrom, dif_neg (by simp [stretch.eq_of_nil])]
      rfl
  | cons code rest ih =>
      have here := stretch.head
      rw [Tape.clauseFrom, dif_pos stretch.lt, Code.afterClauseKeyword?, holds.isPunct_eq here,
        holds.isPunct_eq here, holds.isClauseKeyword_eq here, holds.isWord_eq here]
      split
      · exact ih _ stretch.tail
      split
      · exact ih _ stretch.tail
      by_cases outside : (decide (angles = 0) && Code.isClauseKeyword code) = true
      · simp only [outside, Bool.true_and, if_true]
        cases code.isWord keyword with
        | false => exact ih _ stretch.tail
        | true =>
            have empty : angles = 0 := of_decide_eq_true (Bool.and_eq_true_iff.mp outside).1
            subst empty
            exact holds.clauseFrom_some keyword 0 [] stretch.tail
      · simp only [outside, Bool.false_and, Bool.false_eq_true, if_false]
        exact ih _ stretch.tail

theorem headerClause_eq (keyword : String) (stretch : Stretch all k part j) :
    tape.clauseFrom j keyword 0 none k = .ok (Code.headerClause? keyword part) := by
  rw [holds.clauseFrom_none keyword 0 stretch, headerClause?_eq]

theorem isRecord_eq (guarded : Guarded all i (first :: rest) j) :
    (tape.isWord i "record" && tape.isIdent (i + 1)
      && (tape.isPunct (i + 2) '(' || tape.isPunct (i + 2) '<')) =
      (first.isWord "record" && rest.head?.any CodeToken.isIdent
        && rest.tail.head?.any fun next => next.isPunct '(' || next.isPunct '<') := by
  rw [holds.isWord_eq guarded.stretch.head]
  cases isRecord : first.isWord "record" with
  | false => rfl
  | true =>
      have second := guarded.tail (stopsPiece_of_isIdent (CodeToken.isIdent_of_isWord isRecord))
      rw [holds.isIdent_head second]
      cases rest with
      | nil => rfl
      | cons name rest =>
          cases isName : name.isIdent with
          | false => simp [isName]
          | true =>
              have third := second.tail (stopsPiece_of_isIdent isName)
              rw [holds.isPunct_head third (by decide), holds.isPunct_head third (by decide)]
              cases rest <;> rfl

theorem isAnnotation_eq (guarded : Guarded all i (first :: rest) j) :
    (tape.isPunct i '@' && tape.isWord (i + 1) "interface") =
      (first.isPunct '@' && rest.head?.any (·.isWord "interface")) := by
  rw [holds.isPunct_eq guarded.stretch.head]
  cases isSign : first.isPunct '@' with
  | false => rfl
  | true =>
      rw [holds.isWord_head (guarded.tail (stopsPiece_of_isPunct isSign (by decide)))]

theorem typeKeyword_cases (guarded : Guarded all i part j) :
    (Code.typeKeyword? part = none ∧ tape.typeKeyword i = none) ∨
      ∃ kind front rest, part = front ++ rest ∧ Code.typeKeyword? part = some (kind, rest) ∧
        tape.typeKeyword i = some (kind, i + front.length) ∧
          Guarded all (i + front.length) rest j := by
  cases part with
  | nil =>
      left
      simp [Code.typeKeyword?, Tape.typeKeyword, holds.isWord_head guarded,
        holds.isPunct_head guarded (show '@' ∉ fences by decide)]
  | cons first rest =>
      have here := guarded.stretch.head
      have keyword : ∀ {word}, first.isWord word = true → Guarded all (i + [first].length) rest j :=
        fun isWord => guarded.tail (stopsPiece_of_isIdent (CodeToken.isIdent_of_isWord isWord))
      rw [Tape.typeKeyword, holds.isAnnotation_eq guarded, holds.isRecord_eq guarded]
      simp only [holds.isWord_eq here, Code.typeKeyword?]
      split
      · rename_i isAnnotation
        obtain ⟨isSign, isInterface⟩ := Bool.and_eq_true_iff.mp isAnnotation
        cases rest with
        | nil => cases isInterface
        | cons name rest =>
            have second := guarded.tail (stopsPiece_of_isPunct isSign (by decide))
            exact .inr ⟨_, [first, name], rest, rfl, rfl, rfl,
              second.tail (stopsPiece_of_isIdent (CodeToken.isIdent_of_isWord isInterface))⟩
      split
      · exact .inr ⟨_, [first], rest, rfl, rfl, rfl, keyword ‹_›⟩
      split
      · exact .inr ⟨_, [first], rest, rfl, rfl, rfl, keyword ‹_›⟩
      split
      · exact .inr ⟨_, [first], rest, rfl, rfl, rfl, keyword ‹_›⟩
      cases isRecord : first.isWord "record" with
      | false => exact .inl ⟨by simp, by simp⟩
      | true =>
          rcases rest with _ | ⟨name, _ | ⟨next, more⟩⟩
          · exact .inl ⟨rfl, rfl⟩
          · exact .inl ⟨rfl, by simp⟩
          · simp only [List.head?_cons, Option.any_some, List.tail_cons, Bool.true_and, if_true]
            split
            · exact .inr ⟨_, [first], name :: next :: more, rfl, rfl, rfl, keyword isRecord⟩
            · exact .inl ⟨rfl, rfl⟩

theorem leadingName_eq (guarded : Guarded all i part j) :
    tape.leadingName i = .ok (Code.leadingName? part) := by
  rw [Tape.leadingName, holds.isIdent_head guarded, Code.leadingName?]
  cases part with
  | nil => rfl
  | cons first rest =>
      rw [holds.text_eq guarded.stretch.head]
      cases isName : first.isIdent <;> simp [isName, Option.filter]

/-- The text of the modifiers, up to the token after them. -/
theorem prefix_eq {taken : List CodeToken} {keyword : CodeToken}
    (stretch : Stretch all i (taken ++ keyword :: rest) j) (isFirst : all[i]? = some first) :
    cut tape.source first.start keyword.start = .ok (Code.headerPrefix taken (some keyword)) := by
  have isHead : (taken ++ keyword :: rest).head? = some first := by
    obtain ⟨before, after, rfl, rfl, -⟩ := stretch
    rw [List.append_assoc, List.getElem?_append_right le_rfl, Nat.sub_self] at isFirst
    cases taken <;> exact isFirst
  obtain ⟨before, after, split, -, -⟩ := stretch
  obtain ⟨tail, spelled⟩ := holds.spelled
  have start : first.start = Text.byteSize (Token.spell (flat before) ++ first.lead) := by
    obtain ⟨others, whole⟩ : ∃ others, taken ++ keyword :: rest = first :: others := by
      cases whole : taken ++ keyword :: rest with
      | nil => rw [whole] at isHead; cases isHead
      | cons head others =>
          rw [whole] at isHead
          exact ⟨others, by rw [Option.some.inj isHead]⟩
    exact holds.start_first
      (show all = before ++ first :: (others ++ after) by rw [split, whole]; simp)
  have stop := holds.start_first
    (show all = before ++ taken ++ keyword :: (rest ++ after) by rw [split]; simp)
  have between : Token.spell (flat (before ++ taken)) ++ keyword.lead =
      Token.spell (flat before) ++ first.lead ++ Code.headerPrefix taken (some keyword) := by
    cases taken with
    | nil =>
        obtain rfl : keyword = first := Option.some.inj isHead
        simp [Code.headerPrefix]
    | cons token taken =>
        obtain rfl : token = first := Option.some.inj isHead
        simp [Code.headerPrefix, Code.spell_flat, CodeToken.lead, CodeToken.text]
  have written : tape.source = Token.spell (flat before) ++ first.lead
      ++ Code.headerPrefix taken (some keyword)
        ++ (keyword.text ++ Token.spell (flat (rest ++ after)) ++ tail) := by
    rw [← between, spelled, split]
    simp [Code.spell_flat, CodeToken.lead, CodeToken.text]
  rw [between, Text.byteSize_append] at stop
  rw [written, start, stop]
  exact cut_append _ _ _

end Tape.Holds

def ClassHeader.of (shape : ClassShape) (opening : Nat) : ClassHeader where
  name := shape.name
  typeParams := shape.typeParams
  modifiers := shape.modifiers
  headerPrefix := shape.headerPrefix
  superclass := Code.headerClause? "extends" shape.clauses
  interfaces := Code.headerClause? "implements" shape.clauses
  permits := Code.headerClause? "permits" shape.clauses
  comments := (shape.comments ++ Code.openingComments shape).map .ofToken
  start := Code.bodyStart shape
  opening := opening

/-- A header over places says what the one over the tokens does, from the token `first` on and
before `limit`. -/
inductive Header.Told (code : Code) (first limit : Nat) :
    Except ParseError TypeShape → Run Header → Prop
  | error (error : ParseError) : Told code first limit (.error error) (.error (.parse error))
  | textual (kind : TextualKind) (name : Option Text) :
      Told code first limit (.ok (.textual kind name)) (.ok (.textual kind name))
  | classBody (shape : ClassShape) (opening : Nat) (low : first ≤ opening)
      (inside : Stretch code.tokens (opening + 1) (shape.inside ++ [shape.closing]) limit)
      (closes : shape.closing.isPunct '}' = true)
      (reaches : Reaches code (opening + 1) (Code.bodyStart shape)) :
      Told code first limit (.ok (.classBody shape)) (.ok (.classBody (.of shape opening)))

namespace Tape.Reads

variable {tape : Tape} {code : Code} {piece : Piece} {shape : ClassShape} {i j : Nat}
  (reads : tape.Reads code)
include reads

/-- The comments on the line of an opening brace, and where they stop. -/
theorem opening_eq {front rest : List CodeToken} {opening next : CodeToken}
    (stretch : Stretch code.tokens i (front ++ opening :: next :: rest) j) :
    tape.trailing opening.stop next.start = .ok ((Code.sameLine next.comments).map .ofToken,
        Code.endOf opening.stop (Code.sameLine next.comments)) ∧
      Reaches code (i + front.length + 1)
        (Code.endOf opening.stop (Code.sameLine next.comments)) := by
  have isNext := stretch.append.2.tail.head
  have upTo : Stretch code.tokens i (front ++ [opening]) (i + front.length + 1) := by
    have whole : Stretch code.tokens i ((front ++ [opening]) ++ next :: rest)
      j := by simpa using stretch
    simpa [Nat.add_assoc] using whole.append.1
  have stop := reads.stop_eq upTo
  have comments := commentsAt_of_getElem? isNext
  have trailing := reads.trailing_eq stop (show next.start = _ by rw [isNext]; rfl)
  have reach := (reads.reaches_endOf stop).1
  rw [comments] at trailing reach
  exact ⟨trailing, reach⟩

theorem classHeader_eq (layout : ClassLayout piece shape)
    (stretch : Stretch code.tokens i piece.tokens j) :
    let keyword := i + layout.taken.length
    let clauses := keyword + 2 + layout.params.length
    let opening := clauses + shape.clauses.length
    tape.classHeader i keyword clauses opening shape.name shape.typeParams shape.modifiers =
        .ok (.of shape opening) ∧
      Stretch code.tokens (opening + 1) (shape.inside ++ [shape.closing]) j ∧
      Reaches code (opening + 1) (Code.bodyStart shape) := by
  intro keyword clauses opening
  have isFirst : code.tokens[i]? = some piece.first := stretch.head
  rw [layout.tokens] at stretch
  obtain ⟨next, rest, body⟩ : ∃ next rest, shape.inside ++ [shape.closing] = next :: rest :=
    List.exists_cons_of_ne_nil (by simp)
  have openComments : Code.openingComments shape = Code.sameLine next.comments := by
    rw [Code.openingComments, body]
    rfl
  have header := stretch.append.2
  have inClauses := header.tail.tail.append.2.append.1
  have behind := header.tail.tail.append.2.append.2
  -- the tokens from the keyword to the opening brace
  have toOpening : Stretch code.tokens keyword
      (layout.keyword :: (layout.name :: (layout.params ++ shape.clauses) ++ [shape.opening]))
        (opening + 1) := by
    have whole : Stretch code.tokens keyword
        ((layout.keyword :: (layout.name :: (layout.params ++ shape.clauses) ++ [shape.opening]))
          ++ (shape.inside ++ [shape.closing])) j := by
      simpa using header
    have front := whole.append.1
    simp only [List.length_cons, List.length_append, List.length_nil] at front
    rwa [show keyword + (layout.params.length + shape.clauses.length + 1 + (0 + 1) + 1) =
      opening + 1 by omega] at front
  have comments := reads.header_eq toOpening
  rw [body] at behind
  have opens : Stretch code.tokens keyword
      ((layout.keyword :: layout.name :: (layout.params ++ shape.clauses)) ++
        shape.opening :: next :: rest) j := by
    rw [body] at header
    simpa using header
  obtain ⟨trailing, reach⟩ := reads.opening_eq opens
  have place :
      keyword + (layout.keyword :: layout.name :: (layout.params ++ shape.clauses)).length =
        opening := by
    simp only [List.length_cons, List.length_append]
    omega
  rw [place] at reach
  refine ⟨?_, by rw [body]; exact behind.tail, by rw [Code.bodyStart, openComments]; exact reach⟩
  rw [Tape.classHeader, reads.toHolds.token_eq isFirst, reads.toHolds.token_eq header.head,
    reads.toHolds.token_eq behind.head, reads.toHolds.token_eq behind.tail.head]
  change (Indexed.cut tape.source piece.first.start layout.keyword.start >>= _) = _
  rw [reads.toHolds.prefix_eq stretch isFirst, ok_bind]
  change (tape.trailing shape.opening.stop next.start >>= _) = _
  rw [trailing, ok_bind]
  have said : ∀ word, tape.clauseFrom opening word 0 none clauses =
      .ok (Code.headerClause? word shape.clauses) :=
    fun word => reads.toHolds.headerClause_eq word inClauses
  have leading : tape.commentsBetween layout.keyword.token.start shape.opening.token.stop =
      shape.comments.map .ofToken := by
    rw [layout.comments, show layout.name :: (layout.params ++ (shape.clauses ++ [shape.opening])) =
      layout.name :: (layout.params ++ shape.clauses) ++ [shape.opening] by simp]
    exact comments
  simp only [said, ok_bind, pure_eq_ok, leading, ← layout.headerPrefix, ← List.map_append,
    ClassHeader.of, Code.bodyStart, openComments]

omit reads in
/-- The parts of a class declaration are those that its modifiers and its keyword leave. -/
theorem exists_layout {run : ModifierRun} {part : List CodeToken} (isPiece : piece.isEmpty = false)
    (read : Code.modifiers piece.tokens = .ok run)
    (found : Code.typeKeyword? run.rest = some (.classType, part))
    (shaped : Code.classShape run part piece.last = .ok (.classBody shape)) :
    ∃ layout : ClassLayout piece shape, run.modifiers = shape.modifiers ∧
      run.taken = layout.taken ∧ part = layout.name :: (layout.params ++
        (shape.clauses ++ shape.opening :: (shape.inside ++ [shape.closing]))) := by
  obtain ⟨layout⟩ := ClassLayout.exists_of_declares
    ⟨isPiece, run, read, by rw [Code.typeShape, found]; exact shaped⟩
  obtain ⟨keyword, isRest, -⟩ := Code.typeKeyword?_eq_classType found
  obtain rfl := Except.ok.inj (read.symm.trans layout.modifiers)
  exact ⟨layout, rfl, rfl, (List.cons.inj isRest).2.symm⟩

theorem classBody_told (layout : ClassLayout piece shape)
    (whole : Stretch code.tokens i piece.tokens j) :
    Header.Told code i j (.ok (.classBody shape))
      (tape.classHeader i (i + layout.taken.length)
          (i + layout.taken.length + 2 + layout.params.length)
          (j - (shape.opening :: (shape.inside ++ [shape.closing])).length) shape.name
          shape.typeParams shape.modifiers >>= fun header => pure (.classBody header)) := by
  have size := whole.length
  rw [layout.tokens] at size
  simp only [List.length_append, List.length_cons, List.length_nil] at size
  have start : j - (shape.opening :: (shape.inside ++ [shape.closing])).length =
      i + layout.taken.length + 2 + layout.params.length + shape.clauses.length := by
    simp only [List.length_append, List.length_cons, List.length_nil]
    omega
  obtain ⟨header, inside, reach⟩ := reads.classHeader_eq layout whole
  rw [start, header, ok_bind]
  exact .classBody shape _ (by omega) inside layout.closing reach

theorem namedClass_told {run : ModifierRun} {part : List CodeToken} {k : Nat}
    (isPiece : piece.isEmpty = false) (read : Code.modifiers piece.tokens = .ok run)
    (found : Code.typeKeyword? run.rest = some (.classType, part))
    (whole : Stretch code.tokens i piece.tokens j) (guarded : Guarded code.tokens k part j)
    (place : k = i + run.taken.length + 1) :
    Header.Told code i j (Code.classShape run part piece.last)
      (tape.namedClass i (i + run.taken.length) k (j - 1) run.modifiers) := by
  have holds := reads.toHolds
  obtain ⟨positive, isLast⟩ := whole.last_of_piece
  rw [Tape.namedClass, holds.isIdent_head guarded, Nat.sub_add_cancel positive]
  rcases part with _ | ⟨name, rest⟩
  · exact .textual _ _
  rw [List.head?_cons, Option.any_some, holds.text_eq guarded.stretch.head]
  cases isName : name.isIdent
  · simp only [Code.classShape, isName, Bool.false_eq_true, if_false]
    exact .textual _ _
  have behind := guarded.tail (stopsPiece_of_isIdent isName)
  simp only [if_true, ok_bind]
  obtain ⟨error, params, typeParams⟩ |
    ⟨params, taken, clauses, split, readParams, typeParams, inner⟩ := holds.typeParams_eq behind
  · rw [typeParams]
    simp only [Code.classShape, isName, if_true, params]
    exact .error error
  rw [typeParams, ok_bind]
  dsimp only
  rw [holds.blockStart_eq inner.stretch isLast positive, Code.block?]
  cases dropped : clauses.dropWhile fun token => !token.isPunct '{'
  · simp only [Code.classShape, isName, if_true, readParams, dropped]
    exact .textual _ _
  rename_i opening block
  cases closes : piece.last.isPunct '}'
  · simp only [Code.classShape, isName, if_true, readParams, dropped, closes, Bool.false_eq_true,
      if_false]
    exact .textual _ _
  obtain ⟨shape, shaped⟩ : ∃ shape, Code.classShape run (name :: rest) piece.last =
      .ok (.classBody shape) := by
    simp only [Code.classShape, isName, if_true, readParams, dropped, closes]
    exact ⟨_, rfl⟩
  obtain ⟨layout, modifiers, takenModifiers, isPart⟩ := exists_layout isPiece read found shaped
  obtain ⟨rfl, rfl⟩ := List.cons.inj isPart
  obtain ⟨rfl, rfl⟩ := Prod.mk.inj (Except.ok.inj (readParams.symm.trans layout.typeParams?))
  have same : taken = layout.params := (List.append_cancel_right split).symm
  have isBlock : opening :: block = shape.opening :: (shape.inside ++ [shape.closing]) := by
    rw [← dropped, List.dropWhile_append_of_pos]
    · simp [layout.opening]
    · intro token listed
      simp [layout.clauses token listed]
  have clausesStart : k + 1 + taken.length =
      i + layout.taken.length + 2 + layout.params.length := by
    rw [place, takenModifiers, same]
  rw [shaped]
  simp only [if_true, Option.map_some]
  rw [isBlock, clausesStart, takenModifiers, modifiers, ← layout.nameText]
  exact reads.classBody_told layout whole

theorem header_told (isPiece : piece.isEmpty = false)
    (guarded : Guarded code.tokens i piece.tokens j) :
    Header.Told code i j (Code.modifiers piece.tokens >>= fun run => Code.typeShape run piece.last)
      (tape.header i (j - 1)) := by
  have holds := reads.toHolds
  have whole := guarded.stretch
  obtain ⟨positive, -⟩ := whole.last_of_piece
  rw [Tape.header, Nat.sub_add_cancel positive, holds.modifiers_eq guarded]
  cases read : Code.modifiers piece.tokens with
  | error error => exact .error error
  | ok run =>
      have behind := holds.guarded_of_modifiers guarded read
      change Header.Told code i j (Code.typeShape run piece.last)
        (match tape.typeKeyword (i + run.taken.length) with
          | none => _
          | some (kind, name) => _)
      rw [Code.typeShape]
      obtain ⟨none, nothing⟩ | ⟨kind, front, rest, split, found, there, name⟩ :=
        holds.typeKeyword_cases behind
      · rw [none, nothing]
        exact .textual _ _
      · rw [found, there]
        by_cases isClass : kind = .classType
        · subst isClass
          obtain ⟨keyword, isRest, -⟩ := Code.typeKeyword?_eq_classType found
          have single : front.length = 1 := by
            have size := congrArg List.length (split.symm.trans isRest)
            rw [List.length_append, List.length_cons] at size
            omega
          simp only [if_true, single] at name ⊢
          exact reads.namedClass_told isPiece read found whole name rfl
        · simp only [isClass, if_false]
          rw [holds.leadingName_eq name, ok_bind]
          cases kind <;> first | exact absurd rfl isClass | exact .textual _ _

end Tape.Reads

end JavaRecords.Indexed
