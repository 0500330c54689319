import JavaRecords.Diff.Edit

set_option autoImplicit false

namespace JavaRecords.Diff

/-- An edit with the edits before it, from right to left, and the edits after it. -/
structure Cursor where
  before : List Edit
  here : Edit
  after : List Edit
  deriving DecidableEq, Repr

/-- How much a list of edits holds: its lines and its edits. -/
def weight : List Edit → Nat
  | [] => 0
  | edit :: rest => edit.len + 1 + weight rest

@[simp] theorem weight_cons (edit : Edit) (rest : List Edit) :
    weight (edit :: rest) = edit.len + 1 + weight rest := rfl

/-- How far an insertion or deletion can move up into the equal lines before it. Only an insertion
has new lines to compare. -/
def slideUp (sides : Sides) (previous here : Edit) : Nat :=
  sides.commonSuffix previous.oldStop here.newStop (min previous.oldLen here.newLen)

/-- How far an insertion or deletion can move down into the equal lines after it. -/
def slideDown (sides : Sides) (here next : Edit) : Nat :=
  sides.commonPrefix next.old here.new (min next.oldLen here.newLen)

theorem commonPrefix_le (sides : Sides) (old new limit : Nat) :
    sides.commonPrefix old new limit ≤ limit := by
  induction limit generalizing old new with
  | zero => simp [Sides.commonPrefix]
  | succ limit ih =>
      simp only [Sides.commonPrefix]
      split
      · have := ih (old + 1) (new + 1)
        omega
      · omega

theorem commonSuffix_le (sides : Sides) (old new limit : Nat) :
    sides.commonSuffix old new limit ≤ limit := by
  induction limit generalizing old new with
  | zero => simp [Sides.commonSuffix]
  | succ limit ih =>
      simp only [Sides.commonSuffix]
      split
      · have := ih (old - 1) (new - 1)
        omega
      · omega

theorem slideUp_le (sides : Sides) (previous here : Edit) :
    slideUp sides previous here ≤ previous.len := by
  have bound := commonSuffix_le sides previous.oldStop here.newStop
    (min previous.oldLen here.newLen)
  unfold slideUp
  have len : previous.oldLen ≤ previous.len := by
    unfold Edit.oldLen
    split <;> omega
  omega

theorem slideDown_le (sides : Sides) (here next : Edit) :
    slideDown sides here next ≤ next.len := by
  have bound := commonPrefix_le sides next.old here.new (min next.oldLen here.newLen)
  unfold slideDown
  have len : next.oldLen ≤ next.len := by
    unfold Edit.oldLen
    split <;> omega
  omega

/-- The edits after an edit that moved up by `count` lines out of equal lines ending at `oldStop`.
-/
def lengthenAfter (here : Edit) (oldStop count : Nat) (after : List Edit) : List Edit :=
  match after with
  | next :: rest =>
      if next.kind = .equal then (next.shiftLeft count).grow count :: rest
      else ⟨.equal, oldStop - count, here.newStop - count, count⟩ :: after
  | [] => [⟨.equal, oldStop - count, here.newStop - count, count⟩]

/-- The edits before an edit that moved down by `count` lines into equal lines starting at `old`. -/
def lengthenBefore (here : Edit) (old count : Nat) (before : List Edit) : List Edit :=
  match before with
  | previous :: rest =>
      if previous.kind = .equal then previous.grow count :: rest
      else ⟨.equal, old, here.new, count⟩ :: before
  | [] => [⟨.equal, old, here.new, count⟩]

def moveUp (sides : Sides) (cursor : Cursor) : Cursor :=
  match _split : cursor.before with
  | [] => cursor
  | previous :: earlier =>
      let here := cursor.here
      if previous.kind = .equal then
        let count := slideUp sides previous here
        if count > 0 then
          let left := previous.shrink count
          moveUp sides
            { before := if left.len = 0 then earlier else left :: earlier
              here := here.shiftLeft count
              after := lengthenAfter here previous.oldStop count cursor.after }
        else if previous.len = 0 then moveUp sides { cursor with before := earlier }
        else cursor
      else if previous.kind = here.kind then
        moveUp sides { cursor with before := earlier, here := previous.grow here.len }
      else
        moveUp sides { cursor with before := earlier, after := previous :: cursor.after }
termination_by weight cursor.before
decreasing_by
  all_goals rw [_split, weight_cons]
  · have bound := slideUp_le sides previous cursor.here
    have positive : slideUp sides previous cursor.here > 0 := by assumption
    split
    · omega
    · simp only [weight_cons, Edit.shrink]
      omega
  all_goals omega

def moveDown (sides : Sides) (cursor : Cursor) : Cursor :=
  match _split : cursor.after with
  | [] => cursor
  | next :: later =>
      let here := cursor.here
      if next.kind = .equal then
        let count := slideDown sides here next
        if count > 0 then
          let right := (next.shiftRight count).shrink count
          moveDown sides
            { before := lengthenBefore here next.old count cursor.before
              here := here.shiftRight count
              after := if right.len = 0 then later else right :: later }
        else if next.len = 0 then moveDown sides { cursor with after := later }
        else cursor
      else if next.kind = here.kind then
        moveDown sides { cursor with here := here.grow next.len, after := later }
      else
        moveDown sides { cursor with before := next :: cursor.before, after := later }
termination_by weight cursor.after
decreasing_by
  all_goals rw [_split, weight_cons]
  · have bound := slideDown_le sides cursor.here next
    have positive : slideDown sides cursor.here next > 0 := by assumption
    split
    · omega
    · simp only [weight_cons, Edit.shrink, Edit.shiftRight]
      omega
  all_goals omega

/-- Slides every edit of a kind, from left to right. `before` are the edits already passed, from
right to left, and `fuel` bounds the edits that are passed. -/
def slideFrom (sides : Sides) (kind : EditKind) :
    (fuel : Nat) → (before after : List Edit) → List Edit
  | 0, before, after => before.reverse ++ after
  | _ + 1, before, [] => before.reverse
  | fuel + 1, before, edit :: rest =>
      if edit.kind = kind then
        let cursor := moveDown sides (moveUp sides ⟨before, edit, rest⟩)
        slideFrom sides kind fuel (cursor.here :: cursor.before) cursor.after
      else slideFrom sides kind fuel (edit :: before) rest

/-- Slides every edit of a kind. Where the lines of an insertion repeat around it, it can stand in
several places: it moves up as far as it goes and then down as far as it goes, and joins the edits
of its kind that it meets. -/
def slide (sides : Sides) (kind : EditKind) (edits : List Edit) : List Edit :=
  slideFrom sides kind ((weight edits + 1) * (weight edits + 1)) [] edits

/-- Slides the deletions, and then the insertions. -/
def compact (sides : Sides) (edits : List Edit) : List Edit :=
  slide sides .insert (slide sides .delete edits)

end JavaRecords.Diff
