import JavaRecords.Code.Basic

set_option autoImplicit false

namespace JavaRecords

/-- A declaration or a statement: one token or more. -/
structure Piece where
  first : CodeToken
  rest : List CodeToken
  deriving DecidableEq, Repr

namespace Piece

def tokens (piece : Piece) : List CodeToken := piece.first :: piece.rest

def last (piece : Piece) : CodeToken := piece.rest.getLastD piece.first

def text (piece : Piece) : Text := Code.text piece.tokens

def isEmpty (piece : Piece) : Bool := piece.rest.isEmpty && piece.first.isPunct ';'

/-- The tokens without the semicolon that ends them. -/
def trimmed (piece : Piece) : List CodeToken :=
  if piece.last.isPunct ';' then piece.tokens.dropLast else piece.tokens

end Piece

/-- What keeps a piece open after a block. Declarations and statements are cut by one scan under two
rules: a piece ends at a semicolon outside parentheses, or at the brace that closes a block outside
of them unless the rule keeps it open. -/
structure PieceRule where
  /-- The first token keeps the piece open. -/
  opens : CodeToken → Bool
  /-- A token outside parentheses and blocks keeps the piece open. -/
  keepsOpen : CodeToken → Bool
  /-- The token after a block continues the piece. -/
  chains : CodeToken → Bool

/-- Where the scan of a piece stands. -/
structure PieceScan where
  /-- The parentheses opened and not yet closed. -/
  parens : Nat
  /-- Whether the piece stays open after a block. -/
  isOpen : Bool
  /-- The braces opened and not yet closed. -/
  braces : Nat
  /-- The byte offset of the outermost of those braces. -/
  opened : Nat
  deriving DecidableEq, Repr

namespace PieceScan

def start (rule : PieceRule) (first : CodeToken) : PieceScan := ⟨0, rule.opens first, 0, 0⟩

/-- The scan after one more token, or nothing if the piece ends with it. -/
def step (rule : PieceRule) (scan : PieceScan) (code : CodeToken) (next : Option CodeToken) :
    Option PieceScan :=
  match scan.braces with
  | depth + 1 =>
      if code.isPunct '{' then some { scan with braces := depth + 2 }
      else if code.isPunct '}' then
        if depth = 0 && !scan.isOpen && !next.any rule.chains then none
        else some { scan with braces := depth }
      else some scan
  | 0 =>
      if code.isPunct '(' then some { scan with parens := scan.parens + 1 }
      else if code.isPunct ')' then some { scan with parens := scan.parens - 1 }
      else if scan.parens ≠ 0 then some scan
      else if code.isPunct ';' then none
      else if code.isPunct '{' then some { scan with braces := 1, opened := code.start }
      else some { scan with isOpen := scan.isOpen || rule.keepsOpen code }

end PieceScan

/-- Tokens cut into pieces: what completes the piece that is being scanned, unless a block of it is
never closed, and the pieces after it. -/
structure Pieces where
  here : Option (List CodeToken)
  pieces : List Piece
  /-- The byte offset of the brace that is never closed. -/
  unclosed : Option Nat
  deriving DecidableEq, Repr

namespace Code

/-- Cuts tokens into pieces. `scan` is the state of the piece the tokens continue, if the token
before them did not end it. -/
def piecesFrom (rule : PieceRule) : Option PieceScan → List CodeToken → Pieces
  | none, [] => ⟨some [], [], none⟩
  | some scan, [] => if scan.braces = 0 then ⟨some [], [], none⟩ else ⟨none, [], some scan.opened⟩
  | none, code :: rest =>
      let after := piecesFrom rule ((PieceScan.start rule code).step rule code rest.head?) rest
      ⟨some [], (after.here.map (Piece.mk code)).toList ++ after.pieces, after.unclosed⟩
  | some scan, code :: rest =>
      let after := piecesFrom rule (scan.step rule code rest.head?) rest
      { after with here := after.here.map (code :: ·) }

@[simp] theorem here_piecesFrom_none (rule : PieceRule) (code : List CodeToken) :
    (piecesFrom rule none code).here = some [] := by
  cases code <;> rfl

def pieces (rule : PieceRule) (code : List CodeToken) : Pieces := piecesFrom rule none code

def weight : List Piece → Nat
  | [] => 0
  | piece :: rest => piece.tokens.length + weight rest

@[simp] theorem weight_nil : weight [] = 0 := rfl

@[simp] theorem weight_cons (piece : Piece) (rest : List Piece) :
    weight (piece :: rest) = piece.tokens.length + weight rest := rfl

theorem weight_piecesFrom (rule : PieceRule) (scan : Option PieceScan) (code : List CodeToken) :
    ((piecesFrom rule scan code).here.getD []).length
      + weight (piecesFrom rule scan code).pieces ≤ code.length := by
  fun_induction piecesFrom rule scan code with
  | case1 => simp
  | case2 => simp
  | case3 => simp
  | case4 first rest after ih =>
      have bound : (after.here.getD []).length + weight after.pieces ≤ rest.length := ih
      change 0 + weight ((after.here.map (Piece.mk first)).toList ++ after.pieces) ≤ rest.length + 1
      generalize after.here = here at bound
      cases here with
      | none => simp at *; omega
      | some tokens => simp [Piece.tokens] at *; omega
  | case5 scan first rest after ih =>
      have bound : (after.here.getD []).length + weight after.pieces ≤ rest.length := ih
      change ((after.here.map (first :: ·)).getD []).length + weight after.pieces ≤ rest.length + 1
      generalize after.here = here at bound
      cases here with
      | none => simp at *; omega
      | some tokens => simp at *; omega

theorem weight_pieces_le (rule : PieceRule) (code : List CodeToken) :
    weight (pieces rule code).pieces ≤ code.length := by
  have bound := weight_piecesFrom rule none code
  unfold pieces
  omega

end Code

end JavaRecords
