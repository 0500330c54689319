set_option autoImplicit false

namespace JavaRecords

/-- The byte offsets from `start` on and before `stop`. -/
structure Span where
  start : Nat
  stop : Nat
  deriving DecidableEq, Repr, Inhabited

namespace Span

/-- A span is valid when it does not stop before it starts. -/
def Valid (span : Span) : Prop := span.start ≤ span.stop

instance (span : Span) : Decidable span.Valid := inferInstanceAs (Decidable (_ ≤ _))

/-- The span between two offsets, if they are in order. -/
def new? (start stop : Nat) : Option Span :=
  if start ≤ stop then some ⟨start, stop⟩ else none

/-- The number of bytes covered. -/
def length (span : Span) : Nat := span.stop - span.start

/-- Whether no byte is covered. -/
def isEmpty (span : Span) : Bool := span.start == span.stop

/-- Whether the byte at `offset` is covered. -/
def contains (span : Span) (offset : Nat) : Bool :=
  span.start ≤ offset && offset < span.stop

/-- Whether `inner` starts and stops within the span. -/
def containsSpan (span inner : Span) : Bool :=
  span.start ≤ inner.start && inner.stop ≤ span.stop

end Span

end JavaRecords
