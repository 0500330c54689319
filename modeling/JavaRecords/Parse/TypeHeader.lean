import JavaRecords.Parse.Member

set_option autoImplicit false

namespace JavaRecords

/-- A class declaration cut at the braces of its body. -/
structure ClassShape where
  name : Text
  typeParams : Option Text
  modifiers : Modifiers
  headerPrefix : Text
  /-- The tokens after the name and the type parameters, before the body. -/
  clauses : List CodeToken
  /-- The comments between the keyword `class` and the body. -/
  comments : List Token
  opening : CodeToken
  inside : List CodeToken
  closing : CodeToken
  deriving DecidableEq, Repr

inductive TypeShape where
  | textual (kind : TextualKind) (name : Option Text)
  | classBody (shape : ClassShape)
  deriving DecidableEq, Repr

namespace Code

/-- The kind of type that the tokens after the modifiers declare, and the tokens from the name on. A
record needs a name and a parenthesis or type parameters after it. -/
def typeKeyword? : List CodeToken → Option (TextualKind × List CodeToken)
  | [] => none
  | first :: rest =>
      if first.isPunct '@' && rest.head?.any (·.isWord "interface") then
        some (.annotationType, rest.tail)
      else if first.isWord "class" then some (.classType, rest)
      else if first.isWord "interface" then some (.interfaceType, rest)
      else if first.isWord "enum" then some (.enumType, rest)
      else if first.isWord "record" then
        match rest with
        | name :: next :: _ =>
            if name.isIdent && (next.isPunct '(' || next.isPunct '<') then some (.recordType, rest)
            else none
        | _ => none
      else none

def leadingName? (code : List CodeToken) : Option Text :=
  (code.head?.filter CodeToken.isIdent).map CodeToken.text

def isClauseKeyword (code : CodeToken) : Bool :=
  code.isWord "extends" || code.isWord "implements" || code.isWord "permits"

/-- The tokens before the next clause keyword outside angle brackets. -/
def clauseTokens (angles : Nat) : List CodeToken → List CodeToken
  | [] => []
  | code :: rest =>
      if code.isPunct '<' then code :: clauseTokens (angles + 1) rest
      else if code.isPunct '>' then code :: clauseTokens (angles - 1) rest
      else if angles = 0 && isClauseKeyword code then []
      else code :: clauseTokens angles rest

def afterClauseKeyword? (keyword : String) (angles : Nat) :
    List CodeToken → Option (List CodeToken)
  | [] => none
  | code :: rest =>
      if code.isPunct '<' then afterClauseKeyword? keyword (angles + 1) rest
      else if code.isPunct '>' then afterClauseKeyword? keyword (angles - 1) rest
      else if angles = 0 && isClauseKeyword code && code.isWord keyword then some rest
      else afterClauseKeyword? keyword angles rest

/-- The text of the first clause that `keyword` starts in a class header, unless it is empty. -/
def headerClause? (keyword : String) (code : List CodeToken) : Option Text :=
  match afterClauseKeyword? keyword 0 code with
  | none => none
  | some rest =>
      match clauseTokens 0 rest with
      | [] => none
      | clause => some (text clause)

/-- The text from the first modifier up to the next token after the modifiers. -/
def headerPrefix (taken : List CodeToken) (keyword : Option CodeToken) : Text :=
  if taken.isEmpty then [] else text taken ++ (keyword.map CodeToken.lead).getD []

/-- The class whose name, header and body are the tokens `code`. Without a name or a body, it is
kept as text. -/
def classShape (run : ModifierRun) (code : List CodeToken) (last : CodeToken) :
    Except ParseError TypeShape :=
  match code with
  | [] => .ok (.textual .classType none)
  | name :: rest =>
      if name.isIdent then
        match typeParams? rest with
        | .error error => .error error
        | .ok (typeParams, rest') =>
            let clauses := rest'.takeWhile fun token => !token.isPunct '{'
            match rest'.dropWhile fun token => !token.isPunct '{' with
            | [] => .ok (.textual .classType (some name.text))
            | opening :: block =>
                if last.isPunct '}' then
                  let header := code.take (code.length - block.length)
                  .ok (.classBody
                    { name := name.text
                      typeParams
                      modifiers := run.modifiers
                      headerPrefix := headerPrefix run.taken run.rest.head?
                      clauses
                      comments := header.flatMap CodeToken.comments
                      opening
                      inside := block.dropLast
                      closing := last })
                else .ok (.textual .classType (some name.text))
      else .ok (.textual .classType none)

def typeShape (run : ModifierRun) (last : CodeToken) : Except ParseError TypeShape :=
  match typeKeyword? run.rest with
  | none => .ok (.textual .unknown none)
  | some (.classType, code) => classShape run code last
  | some (kind, code) => .ok (.textual kind (leadingName? code))

theorem length_typeParams? {code rest : List CodeToken} {params : Option Text}
    (read : typeParams? code = .ok (params, rest)) : rest.length ≤ code.length := by
  unfold typeParams? at read
  split at read
  · cases read
    simp
  · rename_i angle after
    split at read
    · unfold close at read
      split at read
      · cases read
      · rename_i enclosed closed
        split at closed
        · rename_i found matched
          cases closed
          cases read
          have shorter := length_rest_of_close? matched
          simp only [List.length_cons]
          omega
        · cases closed
    · cases read
      simp

theorem length_classShape {run : ModifierRun} {code : List CodeToken} {last : CodeToken}
    {shape : ClassShape} (read : classShape run code last = .ok (.classBody shape)) :
    shape.inside.length < code.length := by
  unfold classShape at read
  split at read
  · cases read
  · rename_i name rest
    split at read
    · split at read
      · cases read
      · rename_i params rest' found
        have shorter := length_typeParams? found
        dsimp only at read
        split at read
        · cases read
        · rename_i opening block split
          have dropped : (rest'.dropWhile fun token => !token.isPunct '{').length ≤ rest'.length :=
            (List.dropWhile_sublist _).length_le
          rw [split] at dropped
          split at read
          · cases read
            simp only [List.length_dropLast, List.length_cons] at *
            omega
          · cases read
    · cases read

theorem length_typeKeyword? {code rest : List CodeToken} {kind : TextualKind}
    (found : typeKeyword? code = some (kind, rest)) : rest.length < code.length := by
  unfold typeKeyword? at found
  split at found
  · cases found
  · rename_i first after
    repeat' split at found
    all_goals cases found
    all_goals simp only [List.length_cons, List.length_tail]
    all_goals omega

/-- The body of a class is shorter than its declaration. -/
theorem length_typeShape {run : ModifierRun} {last : CodeToken} {shape : ClassShape}
    (read : typeShape run last = .ok (.classBody shape)) :
    shape.inside.length < run.rest.length := by
  unfold typeShape at read
  split at read
  · cases read
  · rename_i code found
    have shorter := length_typeKeyword? found
    have inner := length_classShape read
    omega
  · cases read

end Code

end JavaRecords
