import JavaRecords.Parse.Statement
import JavaRecords.Tree.Node

set_option autoImplicit false

namespace JavaRecords

namespace Code

/-- Takes pairs of square brackets off the end of a run of tokens, which is given from right to
left, as long as a token stays. Gives the number of pairs and what is left. -/
def stripDims : List CodeToken → Nat × List CodeToken
  | right :: left :: token :: rest =>
      if right.isPunct ']' && left.isPunct '[' then
        let (dims, remaining) := stripDims (token :: rest)
        (dims + 1, remaining)
      else (0, right :: left :: token :: rest)
  | code => (0, code)

/-- A type with pairs of square brackets after it. -/
def withDims (ty : Text) (dims : Nat) : Text :=
  ty ++ (List.replicate dims ['[', ']']).flatten

/-- Cuts a run of tokens at the commas outside brackets of every kind. -/
def splitParams (depth : Nat) : List CodeToken → List (List CodeToken)
  | [] => [[]]
  | code :: rest =>
      let push : List (List CodeToken) → List (List CodeToken)
        | [] => [[code]]
        | part :: parts => (code :: part) :: parts
      if opensBracket code || code.isPunct '<' then push (splitParams (depth + 1) rest)
      else if closesBracket code || code.isPunct '>' then push (splitParams (depth - 1) rest)
      else if depth = 0 && code.isPunct ',' then [] :: splitParams depth rest
      else push (splitParams depth rest)

/-- The parameter that a run of tokens declares: modifiers, a type and a name. Without a name, all
of it is the type. -/
def param (code : List CodeToken) : Except ParseError Param :=
  match modifiers code with
  | .error error => .error error
  | .ok run =>
      let (dims, remaining) := stripDims run.rest.reverse
      let (name, ty) := match remaining with
        | name :: last :: rest =>
            if name.isIdent then (name.text, text (last :: rest).reverse) else ([], text code)
        | _ => ([], text code)
      let ty := withDims ty dims
      .ok ⟨name, ty, run.modifiers, ['.', '.', '.'].isSuffixOf ty⟩

/-- The parameters that the tokens between two parentheses declare. -/
def params (code : List CodeToken) : Except ParseError (List Param) :=
  ((splitParams 0 code).filter fun part => !part.isEmpty).mapM param

/-- What a member is, from the token where its type and name end. -/
inductive MemberForm where
  | method
  | field
  deriving DecidableEq, Repr

/-- A member cut at the token where its type and name end. -/
structure MemberSplit where
  form : MemberForm
  before : List CodeToken
  stop : CodeToken
  after : List CodeToken

/-- Cuts a member at the parenthesis of a method, or at the assignment, comma or semicolon after the
first name of a field, outside angle brackets. A brace in front of them leaves it uncut. -/
def splitMember? (angles : Nat) : List CodeToken → Option MemberSplit
  | [] => none
  | code :: rest =>
      let onward (angles : Nat) := (splitMember? angles rest).map fun split =>
        { split with before := code :: split.before }
      if code.isPunct '<' then onward (angles + 1)
      else if code.isPunct '>' then onward (angles - 1)
      else if angles ≠ 0 then onward angles
      else if code.isPunct '(' then some ⟨.method, [], code, rest⟩
      else if code.isPunct ';' || code.isPunct ',' || code.assign.isSome then
        some ⟨.field, [], code, rest⟩
      else if code.isPunct '{' then none
      else onward angles

/-- The places of the commas and semicolons between the variables of a declaration, counted from
`index`. `depth` counts the open brackets, `angles` the open type arguments, and `previous` is the
token before. -/
def separators (depth angles index : Nat) (previous : CodeToken) :
    List CodeToken → List (Nat × CodeToken)
  | [] => []
  | code :: rest =>
      if opensBracket code then separators (depth + 1) angles (index + 1) code rest
      else if closesBracket code then separators (depth - 1) angles (index + 1) code rest
      else if depth ≠ 0 then separators depth angles (index + 1) code rest
      else if code.isPunct ';' then
        (index, code) :: separators depth 0 (index + 1) code rest
      else if code.isPunct '<' && (previous.isIdent || previous.isPunct '.') then
        separators depth (angles + 1) (index + 1) code rest
      else if code.isPunct '>' && angles > 0 && !code.arrow then
        separators depth (angles - 1) (index + 1) code rest
      else if angles = 0 && code.isPunct ',' then
        (index, code) :: separators depth angles (index + 1) code rest
      else separators depth angles (index + 1) code rest

/-- The commas and semicolons of a field declaration from the token `stop` on, with their places
after it. `stop` itself is counted if it is one of them. -/
def fieldSeparators (stop : CodeToken) (after : List CodeToken) : List (Nat × CodeToken) :=
  let own := if stop.isPunct ';' || stop.isPunct ',' then [(0, stop)] else []
  own ++ separators 0 0 1 stop after

/-- The initial value of the first variable of a field declaration. -/
def fieldInitializer? (split : MemberSplit) : Option Text :=
  if split.stop.isPunct '=' then
    let value := match fieldSeparators split.stop split.after with
      | [] => split.after
      | (index, _) :: _ => split.after.take (index - 1)
    if value.isEmpty then none else some (text value)
  else none

/-- The field that a member declares, if its first variable has a type and a name. -/
def field? (split : MemberSplit) (modifiers : Modifiers) (position : Nat) (source : Excerpt) :
    Option FieldDecl :=
  match stripDims split.before.reverse with
  | (dims, name :: last :: rest) =>
      if name.isIdent then
        let commas := (fieldSeparators split.stop split.after).filter (·.2.isPunct ',')
        some
          { name := name.text
            ty := withDims (text (last :: rest).reverse) dims
            modifiers
            position
            initializer := fieldInitializer? split
            declarators := 1 + commas.length
            source }
      else none
  | _ => none

/-- The block of a member that ends with `last`, if its tokens after the header hold one. -/
def block? (last : CodeToken) (code : List CodeToken) : Option (List CodeToken) :=
  match code.dropWhile fun token => !token.isPunct '{' with
  | [] => none
  | block => if last.isPunct '}' then some block else none

/-- Type parameters at the start of a run of tokens, with their angle brackets, and the rest. -/
def typeParams? : List CodeToken → Except ParseError (Option Text × List CodeToken)
  | [] => .ok (none, [])
  | angle :: rest =>
      if angle.isPunct '<' then
        match close '<' '>' angle rest with
        | .error error => .error error
        | .ok params => .ok
            (some (text (angle :: params.inside ++ [params.closing])), params.rest)
      else .ok (none, angle :: rest)

/-- A declaration that is kept as text. -/
def textual (kind : TextualKind) (name : Option Text) (source : Excerpt) : Node :=
  .textual ⟨kind, name, source⟩

/-- The constructor of the class `name` with parameters and a body after `paren`. Without a body, it
is kept as text. -/
def constructorNode (name : CodeToken) (paren : CodeToken) (rest : List CodeToken)
    (last : CodeToken) (typeParams : Option Text) (modifiers : Modifiers) (source : Excerpt) :
    Except ParseError Node := do
  let enclosed ← close '(' ')' paren rest
  let params ← params enclosed.inside
  match block? last enclosed.rest with
  | none => return textual .unknown (some name.text) source
  | some block =>
      let body ← body block
      return .constructor ⟨name.text, modifiers, typeParams, params, body, source⟩

/-- The method cut at its parenthesis. Without a type and a name, it is kept as text. -/
def methodNode (split : MemberSplit) (last : CodeToken) (typeParams : Option Text)
    (modifiers : Modifiers) (source : Excerpt) : Except ParseError Node :=
  match split.before.reverse with
  | name :: final :: rest =>
      if name.isIdent then do
        let enclosed ← close '(' ')' split.stop split.after
        let params ← params enclosed.inside
        let body ← match block? last enclosed.rest with
          | none => pure none
          | some block => (body block).map some
        return .method
          ⟨name.text, modifiers, typeParams, text (final :: rest).reverse, params, body, source⟩
      else return textual .unknown none source
  | _ => return textual .unknown none source

/-- The member of the class `className` that is not a type, from its modifiers and the tokens after
them. `position` is its place among the members. -/
def memberNode (className : Text) (position : Nat) (run : ModifierRun) (last : CodeToken)
    (source : Excerpt) : Except ParseError Node :=
  match run.rest with
  | [] => return textual .unknown none source
  | first :: rest =>
      if first.isPunct '{' then do
        let body ← body (first :: rest)
        return .initializer ⟨run.modifiers.has .static, body, source⟩
      else do
        let (typeParams, code) ← typeParams? (first :: rest)
        let other : Except ParseError Node :=
          match splitMember? 0 code with
          | none => return textual .unknown none source
          | some split =>
              match split.form with
              | .method => methodNode split last typeParams run.modifiers source
              | .field =>
                  return match field? split run.modifiers position source with
                    | some decl => .field decl
                    | none => textual .unknown none source
        match code with
        | name :: paren :: after =>
            if name.isIdent && name.text == className && paren.isPunct '(' then
              constructorNode name paren after last typeParams run.modifiers source
            else other
        | _ => other

end Code

end JavaRecords
