import JavaRecords.Token.Basic

set_option autoImplicit false

namespace JavaRecords

/-- A token that is never closed, or a bracket that is never closed. -/
inductive ParseError where
  | lex (error : LexError)
  | unbalanced (opening : Char) (offset : Nat)
  deriving DecidableEq, Repr

def ParseError.message : ParseError → String
  | .lex error => error.message
  | .unbalanced opening offset => s!"unbalanced `{opening}` at offset {offset}"

theorem eq_ok_of_toOption {ε α : Type} {result : Except ε α} {value : α}
    (found : result.toOption = some value) : result = .ok value := by
  cases result with
  | error failure => cases found
  | ok own =>
      cases found
      rfl

theorem exists_ok_of_any {ε α : Type} {result : Except ε α} {test : α → Bool}
    (checked : result.toOption.any test = true) :
    ∃ value, result = .ok value ∧ test value = true := by
  cases result with
  | error failure => cases checked
  | ok value => exact ⟨value, rfl, checked⟩

end JavaRecords
