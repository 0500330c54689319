import JavaRecords.Proofs.Indexed.Headers
import JavaRecords.Proofs.Parse.Steps

set_option autoImplicit false

namespace JavaRecords.Indexed

/-- What a declaration is: a complete node, or a class whose members are still to be read. -/
inductive Declaration where
  | node (node : Node)
  | classBody (header : ClassHeader)

/-- Adds a class whose members have been added, with the comments before its closing brace. -/
def addClass (package : Option Text) (header : ClassHeader) (placed : Placed)
    (dangling : List Comment) (members : Members) : SyntaxTree :=
  members.tree.add
    (.classDecl
      { name := header.name
        typeParams := header.typeParams
        modifiers := header.modifiers
        headerPrefix := header.headerPrefix
        superclass := header.superclass
        interfaces := header.interfaces
        permits := header.permits
        package
        members := members.ids
        source := placed.source })
    ⟨placed.leading ++ header.comments, placed.trailing, dangling⟩

namespace Tape

variable (tape : Tape)

/-- Whether a declaration is a lone semicolon. -/
def isEmpty (first last : Nat) : Bool := first = last && tape.isPunct first ';'

def typeDecl (first last : Nat) (source : Excerpt) : Run Declaration :=
  if tape.isEmpty first last then return .node (Code.textual .empty none source)
  else do
    match ← tape.header first last with
    | .textual kind name => return .node (Code.textual kind name source)
    | .classBody header => return .classBody header

def startsType (first last : Nat) : Run Bool := do
  let (_, keyword) ← tape.modifiers (last + 1) first
  return keyword ≤ last && (tape.typeKeyword keyword).isSome

def member (className : Text) (position first last : Nat) (source : Excerpt) : Run Declaration := do
  if ← tape.startsType first last then tape.typeDecl first last source
  else if tape.isEmpty first last then return .node (Code.textual .empty none source)
  else (tape.memberNode className position first last source).map .node

/-- Adds a declaration that ends with the token `last`. `inside` reads the members of a class. Gives
the id of the declaration too. -/
def addDeclared (package : Option Text) (tree : SyntaxTree) (placed : Placed) (last : Nat)
    (inside : ClassHeader → Run Members) : Declaration → Run (SyntaxTree × NodeId)
  | .node node => return (tree.add node ⟨placed.leading, placed.trailing, []⟩, tree.nextId)
  | .classBody header => do
      let members ← inside header
      let brace ← tape.token last
      let dangling := tape.commentsBetween members.cursor brace.start
      return (addClass package header placed dangling members, members.tree.nextId)

/-- Adds the members from the place `i` on in the class `className`, whose closing brace stands at
the place `closing`. -/
def membersFrom (package : Option Text) (className indent : Text) (closing : Nat)
    (members : Members) (i : Nat) : Run Members :=
  if _ : i < closing then do
    let last ← tape.pieceEnd tape.declarationEnds i closing
    let next ← tape.token (last + 1)
    let placed ← tape.item members.cursor i last next.start indent
    if _ : i ≤ last ∧ last < closing then
      let declared ← tape.member className members.ids.length i last placed.source
      let inside (header : ClassHeader) : Run Members :=
        if _ : i ≤ header.opening ∧ header.opening < last then
          membersFrom package header.name (placed.source.indent ++ Code.indentUnit) last
            ⟨members.tree, [], header.start⟩ (header.opening + 1)
        else stuck
      let (tree, id) ← tape.addDeclared package members.tree placed last inside declared
      membersFrom package className indent closing
        ⟨tree, members.ids ++ [id], placed.source.extent.stop⟩ (last + 1)
    else stuck
  else return members
termination_by closing - i

end Tape

theorem Stretch.dropLast {α : Type} {all part : List α} {last : α} {i j : Nat}
    (stretch : Stretch all i (part ++ [last]) j) : Stretch all i part (j - 1) := by
  have size := stretch.append.2.length
  rw [List.length_singleton] at size
  rw [show j - 1 = i + part.length by omega]
  exact stretch.append.1

/-- A declaration over places is what the one over the tokens is, from the token `first` on and
before `limit`. -/
inductive Declaration.Told (code : Code) (first limit : Nat) :
    Except ParseError Code.MemberShape → Run Declaration → Prop
  | error (error : ParseError) : Told code first limit (.error error) (.error (.parse error))
  | node (node : Node) : Told code first limit (.ok (.node node)) (.ok (.node node))
  | classBody (shape : ClassShape) (opening : Nat) (low : first ≤ opening)
      (inside : Stretch code.tokens (opening + 1) (shape.inside ++ [shape.closing]) limit)
      (closes : shape.closing.isPunct '}' = true)
      (reaches : Reaches code (opening + 1) (Code.bodyStart shape)) :
      Told code first limit (.ok (.classBody shape)) (.ok (.classBody (.of shape opening)))

/-- Members over places are those over the tokens, and stop where comments before the place
`closing` do. -/
inductive MembersTold (code : Code) (closing : Nat) :
    Except ParseError Members → Run Members → Prop
  | error (error : ParseError) : MembersTold code closing (.error error) (.error (.parse error))
  | ok (members : Members) (reaches : Reaches code closing members.cursor) :
      MembersTold code closing (.ok members) (.ok members)

/-- A lone semicolon has no modifiers and starts no type. -/
theorem modifiers_of_isEmpty {piece : Piece} (isEmpty : piece.isEmpty = true) :
    Code.modifiers piece.tokens = .ok ⟨{}, [], piece.tokens⟩ ∧
      Code.typeKeyword? piece.tokens = none := by
  obtain ⟨first, rest⟩ := piece
  obtain ⟨alone, semicolon⟩ := Bool.and_eq_true_iff.mp isEmpty
  obtain rfl : rest = [] := List.isEmpty_iff.mp alone
  have isPunct : ∀ c, first.isPunct c = (';' == c) := CodeToken.isPunct_of_isPunct semicolon
  have isIdent : first.isIdent = false := by
    cases isIdent : first.isIdent with
    | false => rfl
    | true => cases (isPunct ';').symm.trans (CodeToken.isPunct_of_isIdent isIdent ';')
  have isWord : ∀ word, first.isWord word = false := by
    intro word
    cases isWord : first.isWord word with
    | false => rfl
    | true => cases isIdent.symm.trans (CodeToken.isIdent_of_isWord isWord)
  refine ⟨Code.modifiers_of_none ?_, ?_⟩
  · simp [Piece.tokens, Code.modifier?, isPunct, Code.wordModifier?, isIdent]
  · simp [Piece.tokens, Code.typeKeyword?, isPunct, isWord]

namespace Tape.Holds

variable {tape : Tape} {all : List CodeToken} {piece : Piece} {i j : Nat} (holds : tape.Holds all)
include holds

theorem isEmpty_eq (stretch : Stretch all i piece.tokens j) :
    tape.isEmpty i (j - 1) = piece.isEmpty := by
  obtain ⟨first, rest⟩ := piece
  have size := stretch.length
  have here : all[i]? = some first := stretch.head
  rw [Tape.isEmpty, Piece.isEmpty, holds.isPunct_eq here]
  cases rest with
  | nil => simp [size, Piece.tokens]
  | cons second rest =>
      have longer : ¬ i = j - 1 := by
        simp only [Piece.tokens, List.length_cons] at size
        omega
      simp [longer]

theorem startsType_eq (guarded : Guarded all i piece.tokens j) :
    tape.startsType i (j - 1) =
      lift ((Code.modifiers piece.tokens).map fun run => (Code.typeKeyword? run.rest).isSome) := by
  obtain ⟨positive, -⟩ := guarded.stretch.last_of_piece
  rw [Tape.startsType, Nat.sub_add_cancel positive, holds.modifiers_eq guarded]
  cases read : Code.modifiers piece.tokens with
  | error error => rfl
  | ok run =>
      have behind := holds.guarded_of_modifiers guarded read
      simp only [Except.map, lift_ok, ok_bind]
      obtain ⟨none, nothing⟩ | ⟨kind, front, rest, split, found, there, name⟩ :=
        holds.typeKeyword_cases behind
      · rw [none, nothing]
        simp
      · have after := behind.stretch.lt_of_ne_nil
          (by rintro empty; rw [empty] at found; cases found)
        rw [found, there]
        simp only [Option.isSome_some, Bool.and_true, pure_eq_ok, Except.ok.injEq,
          decide_eq_true_eq]
        omega

theorem declaration_cases {first : CodeToken} {part : List CodeToken}
    (stretch : Stretch all i (first :: part) j)
    (fence : ∀ next, all[j]? = some next → ∃ c ∈ fences, next.isPunct c = true) :
    (∃ offset, Code.pieces Code.declarationRule (first :: part) = ⟨some [], [], some offset⟩ ∧
      tape.pieceEnd tape.declarationEnds i j = .error (.parse (.unbalanced '{' offset))) ∨
    ∃ piece rest k, i < k ∧ piece.first = first ∧
      Code.pieces Code.declarationRule (first :: part) =
        { Code.pieces Code.declarationRule rest with
          pieces := piece :: (Code.pieces Code.declarationRule rest).pieces } ∧
      tape.pieceEnd tape.declarationEnds i j = .ok (k - 1) ∧
      Guarded all i piece.tokens k ∧ Code.Completes .fresh piece.tokens ∧ Stretch all k rest j := by
  obtain failed | ⟨piece, rest, split, ends, cut, here, found⟩ :=
    holds.pieceEnd_eq holds.agrees_declarationEnds stretch
  · exact .inl failed
  · rw [split] at stretch
    have guarded := Guarded.of_append stretch ends fence
    exact .inr ⟨piece, rest, _, guarded.stretch.lt_of_ne_nil piece.tokens_ne_nil,
      (List.cons.inj split).1.symm, cut, found, guarded,
      Code.completes_piecesFrom (.start Code.declarationRule first) _ here, stretch.append.2⟩

end Tape.Holds

namespace Tape.Reads

variable {tape : Tape} {code : Code} {piece : Piece} {i j : Nat} (reads : tape.Reads code)
include reads

theorem typeDecl_told (guarded : Guarded code.tokens i piece.tokens j) (source : Excerpt) :
    Declaration.Told code i j (Code.typeMember piece source) (tape.typeDecl i (j - 1) source) := by
  unfold Code.typeMember
  rw [Tape.typeDecl, reads.toHolds.isEmpty_eq guarded.stretch]
  cases isPiece : piece.isEmpty with
  | true => exact .node _
  | false =>
      simp only [Bool.false_eq_true, if_false]
      have told := reads.header_told isPiece guarded
      generalize (Code.modifiers piece.tokens >>= fun run => Code.typeShape run piece.last) =
        shape at told ⊢
      generalize tape.header i (j - 1) = header at told ⊢
      cases told with
      | error error => exact .error error
      | textual kind name => exact .node _
      | classBody shape opening low inside closes reaches =>
          exact .classBody shape opening low inside closes reaches

theorem member_told (className : Text) (position : Nat) (source : Excerpt)
    (guarded : Guarded code.tokens i piece.tokens j)
    (completes : Code.Completes .fresh piece.tokens) :
    Declaration.Told code i j (Code.memberShape className position piece source)
      (tape.member className position i (j - 1) source) := by
  have node := reads.toHolds.memberNode_eq className position source guarded completes
  rw [Tape.member, reads.toHolds.startsType_eq guarded,
    reads.toHolds.isEmpty_eq guarded.stretch, node]
  cases read : Code.modifiers piece.tokens with
  | error error =>
      have isPiece : piece.isEmpty = false := by
        cases isEmpty : piece.isEmpty with
        | false => rfl
        | true => cases read.symm.trans (modifiers_of_isEmpty isEmpty).1
      simp only [Code.memberShape, isPiece, read, Bool.false_eq_true, if_false]
      exact .error error
  | ok run =>
      simp only [Except.map, lift_ok, ok_bind]
      cases found : (Code.typeKeyword? run.rest).isSome with
      | true =>
          rw [Code.memberShape_of_typeKeyword read found]
          exact reads.typeDecl_told guarded source
      | false =>
          have none := Option.not_isSome_iff_eq_none.mp (Bool.eq_false_iff.mp found)
          simp only [Code.memberShape, read, none, Bool.false_eq_true, if_false]
          cases piece.isEmpty with
          | true => exact .node _
          | false =>
              simp only [Bool.false_eq_true, if_false]
              cases Code.memberNode className position run piece.last source with
              | error error => exact .error error
              | ok node => exact .node node

/-- The comments before a place are those that follow what is cut before it. -/
theorem followedBy {rest : List CodeToken} {tail : List Token}
    (stretch : Stretch code.tokens i rest j) (isTail : commentsAt code j = tail) :
    Code.FollowedBy tail (Code.pieces Code.declarationRule rest) (commentsAt code i) := by
  cases rest with
  | nil => exact .inl (by rw [← isTail, stretch.eq_of_nil]; rfl)
  | cons first rest =>
      have comments := commentsAt_of_getElem? stretch.head
      have holds := reads.toHolds
      obtain ⟨offset, same, -⟩ | ⟨piece, left, split, -, same, -⟩ :=
        holds.pieceEnd_eq holds.agrees_declarationEnds stretch
      · exact .inr (by simp [same])
      · rw [same, comments, (List.cons.inj split).1]
        exact .inl rfl

/-- A declaration is added with its members. -/
theorem addDeclared_eq (package : Option Text) (tree : SyntaxTree) (placed : Placed)
    (inside : ClassHeader → Run Members) {shaped : Except ParseError Code.MemberShape}
    {declared : Run Declaration} (told : Declaration.Told code i j shaped declared)
    (members : ∀ shape opening, i ≤ opening →
      Stretch code.tokens (opening + 1) (shape.inside ++ [shape.closing]) j →
      shape.closing.isPunct '}' = true → Reaches code (opening + 1) (Code.bodyStart shape) →
      MembersTold code (j - 1)
        (Code.addInside ⟨tape.source, package⟩
          ⟨shape.name, placed.source.indent ++ Code.indentUnit, shape.closing.comments⟩
          ⟨tree, [], Code.bodyStart shape⟩ (Code.pieces Code.declarationRule shape.inside))
        (inside (.of shape opening))) :
    (declared >>= tape.addDeclared package tree placed (j - 1) inside) =
      lift (shaped >>= Code.addDeclared ⟨tape.source, package⟩ tree placed) := by
  cases told with
  | error error => rfl
  | node node => rfl
  | classBody shape opening low stretch closes reaches =>
      have nested := members shape opening low stretch closes reaches
      have isLast := stretch.last
      change (inside (.of shape opening) >>= _) =
        lift (Code.addClassWithMembers ⟨tape.source, package⟩ tree shape placed)
      rw [Code.addClassWithMembers]
      unfold Code.addInside at nested
      dsimp only at nested ⊢
      generalize Code.addMembers ⟨tape.source, package⟩ _ _ _ _ = added at nested ⊢
      generalize inside (.of shape opening) = read at nested ⊢
      cases nested with
      | error error => rfl
      | ok members reaches =>
          rw [ok_bind, reads.toHolds.token_eq isLast, ok_bind]
          change Except.ok (addClass package _ placed
            (tape.commentsBetween members.cursor shape.closing.start) members, _) = _
          rw [(reads.leading_eq reaches isLast).1]
          rfl

theorem membersFrom_told (package : Option Text) (className indent : Text) {closing i : Nat}
    (members : Members) {part : List CodeToken} {brace : CodeToken}
    (inside : Stretch code.tokens i part closing) (isBrace : code.tokens[closing]? = some brace)
    (closes : brace.isPunct '}' = true) (reach : Reaches code i members.cursor) :
    MembersTold code closing
      (Code.addInside ⟨tape.source, package⟩ ⟨className, indent, brace.comments⟩ members
        (Code.pieces Code.declarationRule part))
      (tape.membersFrom package className indent closing members i) := by
  have holds := reads.toHolds
  match part with
  | [] =>
      rw [Tape.membersFrom, dif_neg (by simp [inside.eq_of_nil])]
      simp only [Code.addInside, Code.pieces, Code.piecesFrom, Code.addMembers]
      exact .ok members (inside.eq_of_nil ▸ reach)
  | first :: part =>
      rw [Tape.membersFrom, dif_pos inside.lt]
      obtain ⟨offset, same, found⟩
        | ⟨piece, rest, k, goes, -, same, found, guarded, completes, behind⟩ :=
        holds.declaration_cases inside
          fun next isNext =>
            ⟨'}', by decide, by rwa [← Option.some.inj (isBrace.symm.trans isNext)]⟩
      · rw [same, found]
        simp only [Code.addInside, Code.addMembers]
        exact .error _
      · have follows := reads.followedBy behind (commentsAt_of_getElem? isBrace)
        obtain ⟨next, isNext⟩ : ∃ next, code.tokens[k]? = some next := by
          cases rest with
          | nil => exact ⟨brace, behind.eq_of_nil ▸ isBrace⟩
          | cons next rest => exact ⟨next, behind.head⟩
        have last : k - 1 + 1 = k := Nat.sub_add_cancel (by omega)
        have size := behind.length
        obtain ⟨item, reaches⟩ := reads.item_eq guarded.stretch reach
          (show next.token.start = _ by rw [isNext]; rfl) indent
        rw [same, found, ok_bind, last, holds.token_eq isNext, ok_bind, item, ok_bind,
          Code.addInside_cons follows, dif_pos (by omega)]
        change Reaches code k (Code.place tape.source members.cursor piece _
          indent).source.extent.stop at reaches
        dsimp only
        generalize Code.place tape.source members.cursor piece (commentsAt code k) indent =
          placed at reaches
        have added := reads.addDeclared_eq package members.tree placed
          (fun header =>
            if _ : i ≤ header.opening ∧ header.opening < k - 1 then
              tape.membersFrom package header.name (placed.source.indent ++ Code.indentUnit) (k - 1)
                ⟨members.tree, [], header.start⟩ (header.opening + 1)
            else stuck)
          (reads.member_told className members.ids.length placed.source guarded completes)
          fun shape opening low stretch closes reaches => by
            have length := stretch.length
            rw [List.length_append, List.length_singleton] at length
            have bounds : i ≤ opening ∧ opening < k - 1 := by omega
            have shorter : shape.inside.length < (first :: part).length := by
              have whole := inside.length
              omega
            have nested := membersFrom_told package shape.name
              (placed.source.indent ++ Code.indentUnit)
              ⟨members.tree, [], Code.bodyStart shape⟩ stretch.dropLast stretch.last closes reaches
            change MembersTold code (k - 1) _ (if _ : i ≤ opening ∧ opening < k - 1 then _ else _)
            rw [dif_pos bounds]
            exact nested
        rw [Code.addMember, ← bind_assoc, ← bind_assoc, added]
        cases Code.memberShape className members.ids.length piece placed.source >>=
          Code.addDeclared ⟨tape.source, package⟩ members.tree placed with
        | error error => exact .error error
        | ok added =>
            have shorter : rest.length < (first :: part).length := by
              have whole := inside.length
              omega
            exact membersFrom_told package className indent
              ⟨added.1, members.ids ++ [added.2], placed.source.extent.stop⟩ behind isBrace
                closes reaches
termination_by part.length
decreasing_by all_goals exact shorter

end Tape.Reads

end JavaRecords.Indexed
