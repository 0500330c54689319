import JavaRecords.Code.Bracket
import JavaRecords.Parse.Error
import JavaRecords.Tree.Modifier

set_option autoImplicit false

namespace JavaRecords

def Code.close (left right : Char) (opening : CodeToken) (code : List CodeToken) :
    Except ParseError Enclosed :=
  match Code.close? left right 0 code with
  | some enclosed => .ok enclosed
  | none => .error (.unbalanced left opening.start)

/-- One modifier or annotation, the tokens it is made of, and the tokens after it. -/
structure ModifierStep where
  add : Modifiers
  taken : List CodeToken
  rest : List CodeToken

/-- The modifiers at the start of a run of tokens, the tokens they are made of, and the tokens after
them. -/
structure ModifierRun where
  modifiers : Modifiers
  taken : List CodeToken
  rest : List CodeToken
  deriving DecidableEq, Repr

namespace Code

/-- The pairs of a dot and an identifier at the start of a run of tokens, and the rest. -/
def qualifiers : List CodeToken → List CodeToken × List CodeToken
  | dot :: name :: rest =>
      if dot.isPunct '.' && name.isIdent then
        let (more, rest) := qualifiers rest
        (dot :: name :: more, rest)
      else ([], dot :: name :: rest)
  | code => ([], code)

/-- The annotation with the tokens `taken`. -/
def annotationStep (taken rest : List CodeToken) : ModifierStep :=
  ⟨⟨[], [text taken]⟩, taken, rest⟩

/-- The annotation that the token `sign` starts: a qualified name, and arguments in parentheses. -/
def annotation? (sign : CodeToken) (code : List CodeToken) :
    Except ParseError (Option ModifierStep) :=
  match code with
  | [] => .ok none
  | name :: rest =>
      if name.isIdent && !name.isWord "interface" then
        let (qualifier, rest) := qualifiers rest
        let taken := sign :: name :: qualifier
        match rest with
        | [] => .ok (some (annotationStep taken []))
        | paren :: after =>
            if paren.isPunct '(' then
              match close '(' ')' paren after with
              | .error error => .error error
              | .ok arguments =>
                  .ok (some (annotationStep (taken ++ paren :: arguments.inside
                    ++ [arguments.closing]) arguments.rest))
            else .ok (some (annotationStep taken (paren :: after)))
      else .ok none

def wordModifier? (word : CodeToken) (rest : List CodeToken) : Option ModifierStep :=
  if word.isIdent then
    (Modifier.ofWord? word.text).map fun modifier => ⟨⟨[modifier], []⟩, [word], rest⟩
  else none

def modifier? : List CodeToken → Except ParseError (Option ModifierStep)
  | [] => .ok none
  | first :: rest =>
      if first.isPunct '@' then annotation? first rest
      else match rest with
        | dash :: word :: after =>
            if first.isWord "non" && dash.isPunct '-' && word.isWord "sealed" then
              .ok (some ⟨⟨[.nonSealed], []⟩, [first, dash, word], after⟩)
            else .ok (wordModifier? first rest)
        | _ => .ok (wordModifier? first rest)

theorem length_qualifiers (code : List CodeToken) :
    (qualifiers code).2.length ≤ code.length := by
  fun_induction qualifiers code with
  | case1 dot name rest named more rest' split ih =>
      rw [split] at ih
      simp only [List.length_cons] at *
      omega
  | case2 => simp
  | case3 => simp

theorem length_of_annotation? {sign : CodeToken} {code : List CodeToken} {step : ModifierStep}
    (found : annotation? sign code = .ok (some step)) : step.rest.length ≤ code.length := by
  unfold annotation? at found
  split at found
  · cases found
  · rename_i name rest
    split at found
    · have shorter := length_qualifiers rest
      dsimp only at found
      split at found
      · cases found
        simp [annotationStep]
      · rename_i paren after split
        rw [split] at shorter
        split at found
        · unfold close at found
          split at found
          · cases found
          · rename_i arguments closed
            split at closed
            · rename_i enclosed matched
              cases closed
              cases found
              have inner := length_rest_of_close? matched
              simp only [annotationStep, List.length_cons] at *
              omega
            · cases closed
        · cases found
          simp only [annotationStep, List.length_cons] at *
          omega
    · cases found

theorem length_of_wordModifier? {word : CodeToken} {rest : List CodeToken} {step : ModifierStep}
    (found : wordModifier? word rest = some step) : step.rest.length ≤ rest.length := by
  unfold wordModifier? at found
  split at found
  · obtain ⟨modifier, _, rfl⟩ := Option.map_eq_some_iff.mp found
    simp
  · cases found

theorem length_of_modifier? {code : List CodeToken} {step : ModifierStep}
    (found : modifier? code = .ok (some step)) : step.rest.length < code.length := by
  unfold modifier? at found
  split at found
  · cases found
  · rename_i first rest
    split at found
    · have shorter := length_of_annotation? found
      simp only [List.length_cons]
      omega
    · split at found
      · split at found
        · cases found
          simp only [List.length_cons]
          omega
        · have shorter := length_of_wordModifier? (Except.ok.inj found)
          simp only [List.length_cons] at *
          omega
      · have shorter := length_of_wordModifier? (Except.ok.inj found)
        simp only [List.length_cons]
        omega

def modifiers (code : List CodeToken) : Except ParseError ModifierRun :=
  match _found : modifier? code with
  | .error error => .error error
  | .ok none => .ok ⟨{}, [], code⟩
  | .ok (some step) =>
      match modifiers step.rest with
      | .error error => .error error
      | .ok run => .ok
          { modifiers :=
              { keywords := step.add.keywords ++ run.modifiers.keywords
                annotations := step.add.annotations ++ run.modifiers.annotations }
            taken := step.taken ++ run.taken
            rest := run.rest }
termination_by code.length
decreasing_by exact length_of_modifier? _found

end Code

end JavaRecords
