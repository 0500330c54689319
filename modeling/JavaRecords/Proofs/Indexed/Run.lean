import JavaRecords.Parse.Error
import JavaRecords.Text.Basic

set_option autoImplicit false

namespace JavaRecords.Indexed

/-- What a run over positions must not do. -/
inductive Fault where
  /-- Read a token that is not there. -/
  | index (place : Nat)
  /-- Cut a text past its end, inside a character or backwards. -/
  | cut (start stop : Nat)
  /-- Take a position from a smaller one. -/
  | negative (left right : Nat)
  /-- Make a range that stops before it starts. -/
  | range (start stop : Nat)
  /-- Skip a text that is not there. -/
  | missing (word : Text)
  /-- Print a record that starts or ends inside a character of the source, or a declaration that
  holds itself. -/
  | unprintable
  /-- Start a loop over without having gone on. -/
  | stuck
  deriving DecidableEq, Repr

/-- Why a run ends without a result. -/
inductive Stop where
  | parse (error : ParseError)
  | fault (fault : Fault)
  deriving DecidableEq, Repr

abbrev Run (α : Type) := Except Stop α

def stuck {α : Type} : Run α := .error (.fault .stuck)

/-- The difference of two positions. -/
def sub (left right : Nat) : Run Nat :=
  if right ≤ left then .ok (left - right) else .error (.fault (.negative left right))

def cut (text : Text) (start stop : Nat) : Run Text :=
  match text.slice? start stop with
  | some part => .ok part
  | none => .error (.fault (.cut start stop))

def range (start stop : Nat) : Run Span :=
  match Span.new? start stop with
  | some span => .ok span
  | none => .error (.fault (.range start stop))

/-- A test, and a second one that is made only if the first holds. -/
def also (first : Bool) (second : Run Bool) : Run Bool := if first then second else .ok false

@[simp] theorem also_false (second : Run Bool) : also false second = .ok false := rfl

@[simp] theorem also_true (second : Run Bool) : also true second = second := rfl

@[simp] theorem also_ok (first second : Bool) :
    also first (.ok second) = .ok (first && second) := by
  cases first <;> rfl

/-- A result of the readers over lists as that of a run. -/
def lift {α : Type} (result : Except ParseError α) : Run α := result.mapError .parse

section

variable {α β : Type}

@[simp] theorem lift_ok (value : α) : lift (.ok value) = .ok value := rfl

@[simp] theorem lift_error (error : ParseError) : lift (.error error : Except ParseError α) =
    .error (.parse error) := rfl

@[simp] theorem ok_bind (value : α) (next : α → Run β) :
    ((.ok value : Run α) >>= next) = next value :=
  rfl

@[simp] theorem error_bind (stop : Stop) (next : α → Run β) :
    ((.error stop : Run α) >>= next) = .error stop := rfl

@[simp] theorem map_ok (f : α → β) (value : α) : ((.ok value : Run α).map f) = .ok (f value) := rfl

@[simp] theorem pure_eq_ok (value : α) : (pure value : Run α) = .ok value := rfl

/-- A run that gives what a reader over lists gives meets no fault. -/
theorem lift_ne_fault (result : Except ParseError α) (fault : Fault) :
    lift result ≠ .error (.fault fault) := by
  cases result <;> simp

end

@[simp] theorem sub_of_le {left right : Nat} (ordered : right ≤ left) :
    sub left right = .ok (left - right) := if_pos ordered

theorem range_of_le {start stop : Nat} (ordered : start ≤ stop) :
    range start stop = .ok ⟨start, stop⟩ := by
  simp [range, Span.new?, ordered]

theorem cut_of_slice? {text part : Text} {start stop : Nat}
    (sliced : text.slice? start stop = some part) : cut text start stop = .ok part := by
  simp [cut, sliced]

/-- The middle part of a text lies between the offsets of its ends. -/
theorem cut_append (left middle right : Text) :
    cut (left ++ middle ++ right) (Text.byteSize left) (Text.byteSize left + Text.byteSize middle) =
      .ok middle := cut_of_slice? (Text.slice?_append left middle right)

end JavaRecords.Indexed
