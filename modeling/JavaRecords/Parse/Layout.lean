import JavaRecords.Code.Piece
import JavaRecords.Tree.Node

set_option autoImplicit false

namespace JavaRecords

def Comment.ofToken (token : Token) : Comment :=
  let kind := match token.kind with
    | .lineComment => .line
    | .docComment => .doc
    | _ => .block
  ⟨kind, token.text, token.span⟩

/-- A declaration in its source, with the comments before it and after it on its last line. -/
structure Placed where
  source : Excerpt
  leading : List Comment
  trailing : List Comment
  deriving DecidableEq, Repr

namespace Code

def commentsFrom (offset : Nat) (comments : List Token) : List Token :=
  comments.filter fun comment => offset ≤ comment.start

/-- The byte offset after the last of some comments, or `offset` if there are none. -/
def endOf (offset : Nat) (comments : List Token) : Nat :=
  (comments.getLast?.map Token.stop).getD offset

/-- The blank text before a byte offset on its line, or `otherwise` if the line does not start with
blank text only. -/
def indentAt (source : Text) (offset : Nat) (otherwise : Text) : Text :=
  ((Text.splitAt? offset source).bind fun cut => Text.indentation? cut.1).getD otherwise

/-- Places a piece in its source. `cursor` is where the declaration before it ends, `following` are
the comments between the piece and the next token, and `indent` is the indentation of a piece that
does not start its line. -/
def place (source : Text) (cursor : Nat) (piece : Piece) (following : List Token)
    (indent : Text) : Placed :=
  let range : Span := ⟨piece.first.start, piece.last.stop⟩
  let trailing := sameLine following
  { source :=
      { text := piece.text
        indent := indentAt source range.start indent
        range
        extent := ⟨cursor, endOf range.stop trailing⟩ }
    leading := (commentsFrom cursor piece.first.comments).map Comment.ofToken
    trailing := trailing.map Comment.ofToken }

/-- The comments between a piece and the token after it: before the next piece, or the comments
`tail` if it is the last. -/
def following (tail : List Token) : List Piece → List Token
  | [] => tail
  | next :: _ => next.first.comments

end Code

end JavaRecords
