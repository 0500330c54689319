import JavaRecords.Code.Basic

set_option autoImplicit false

namespace JavaRecords

/-- A run of tokens cut at the bracket that closes it. -/
structure Enclosed where
  inside : List CodeToken
  closing : CodeToken
  rest : List CodeToken
  deriving DecidableEq, Repr

namespace Enclosed

def push (code : CodeToken) (enclosed : Enclosed) : Enclosed :=
  { enclosed with inside := code :: enclosed.inside }

def tokens (enclosed : Enclosed) : List CodeToken :=
  enclosed.inside ++ enclosed.closing :: enclosed.rest

@[simp] theorem tokens_push (code : CodeToken) (enclosed : Enclosed) :
    (push code enclosed).tokens = code :: enclosed.tokens := rfl

end Enclosed

namespace Code

/-- Cuts a run of tokens at the bracket that closes an `opening` standing before the run. `depth`
counts the brackets opened and not yet closed within the run. -/
def close? (opening closing : Char) (depth : Nat) : List CodeToken → Option Enclosed
  | [] => none
  | code :: rest =>
      if code.isPunct opening then
        (close? opening closing (depth + 1) rest).map (Enclosed.push code)
      else if code.isPunct closing then
        match depth with
        | 0 => some ⟨[], code, rest⟩
        | depth + 1 => (close? opening closing depth rest).map (Enclosed.push code)
      else (close? opening closing depth rest).map (Enclosed.push code)

/-- Cutting at a bracket loses nothing. -/
theorem tokens_of_close? {opening closing : Char} {depth : Nat} {code : List CodeToken}
    {enclosed : Enclosed} (closed : close? opening closing depth code = some enclosed) :
    enclosed.tokens = code := by
  fun_induction close? opening closing depth code generalizing enclosed with
  | case1 => cases closed
  | case2 depth first rest _ ih =>
      obtain ⟨inner, found, rfl⟩ := Option.map_eq_some_iff.mp closed
      rw [Enclosed.tokens_push, ih found]
  | case3 => cases closed; rfl
  | case4 first rest _ _ depth ih =>
      obtain ⟨inner, found, rfl⟩ := Option.map_eq_some_iff.mp closed
      rw [Enclosed.tokens_push, ih found]
  | case5 depth first rest _ _ ih =>
      obtain ⟨inner, found, rfl⟩ := Option.map_eq_some_iff.mp closed
      rw [Enclosed.tokens_push, ih found]

theorem length_rest_of_close? {opening closing : Char} {depth : Nat} {code : List CodeToken}
    {enclosed : Enclosed} (closed : close? opening closing depth code = some enclosed) :
    enclosed.rest.length < code.length := by
  have same := congrArg List.length (tokens_of_close? closed)
  simp only [Enclosed.tokens, List.length_append, List.length_cons] at same
  omega

end Code

end JavaRecords
