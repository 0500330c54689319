import JavaRecords.Parse.Statement
import JavaRecords.Parse.Unit
import JavaRecords.Proofs.Indexed.Operators
import JavaRecords.Proofs.Parse.Scan

set_option autoImplicit false

namespace JavaRecords.Indexed

/-- What keeps a declaration or statement open, by the places of its tokens. -/
structure EndRule where
  opens : Nat → Bool
  keepsOpen : Nat → Run Bool
  chains : Nat → Bool

namespace Tape

variable (tape : Tape)

def declarationEnds : EndRule where
  opens _ := false
  keepsOpen i := do return (← tape.assignAt i).isSome
  chains _ := false

/-- A statement is kept open by `do`, an assignment, an arrow, or what follows a block. -/
def statementEnds : EndRule where
  opens i := tape.isWord i "do"
  keepsOpen i := do if (← tape.assignAt i).isSome then return true else tape.arrowAt i
  chains i := tape.isWord i "else" || tape.isWord i "catch" || tape.isWord i "finally"
    || tape.isPunct i ';' || tape.isPunct i '.' || tape.isPunct i ')' || tape.isPunct i ','

/-- The place of the last token of a declaration or statement, from the place `i` in it. -/
def endFrom (rule : EndRule) (limit parens : Nat) (isOpen : Bool) (i : Nat) : Run Nat :=
  if _ : i < limit then
    if tape.isPunct i '(' then endFrom rule limit (parens + 1) isOpen (i + 1)
    else if tape.isPunct i ')' then endFrom rule limit (parens - 1) isOpen (i + 1)
    else if parens ≠ 0 then endFrom rule limit parens isOpen (i + 1)
    else if tape.isPunct i ';' then return i
    else do
      let kept ← rule.keepsOpen i
      if tape.isPunct i '{' then
        let closing ← tape.matching i '{' '}' limit
        if isOpen || kept || (closing + 1 < limit && rule.chains (closing + 1)) then
          if _ : i ≤ closing then
            endFrom rule limit parens (isOpen || kept) (closing + 1)
          else stuck
        else return closing
      else endFrom rule limit parens (isOpen || kept) (i + 1)
  else sub limit 1
termination_by limit - i

/-- The place of the last token of the declaration or statement that starts at a place. -/
def pieceEnd (rule : EndRule) (start limit : Nat) : Run Nat :=
  tape.endFrom rule limit 0 (rule.opens start) start

end Tape

/-- Whether a piece can end with a token although more tokens follow. -/
def stopsPiece (code : CodeToken) : Bool := code.isPunct ';' || code.isPunct '}'

def Ends (piece : List CodeToken) : Prop := piece.getLast?.any stopsPiece = true

theorem Ends.cons {piece : List CodeToken} (ends : Ends piece) (first : CodeToken) :
    Ends (first :: piece) := by
  unfold Ends at *
  cases piece with
  | nil => cases ends
  | cons second rest => rwa [List.getLast?_cons_cons]

theorem stopsPiece_of_step {rule : PieceRule} {scan : PieceScan} {code : CodeToken}
    {next : Option CodeToken} (ends : scan.step rule code next = none) :
    stopsPiece code = true := by
  rw [stopsPiece, Bool.or_eq_true]
  unfold PieceScan.step at ends
  split at ends
  · split at ends
    · cases ends
    · split at ends
      · exact .inr ‹_›
      · cases ends
  · by_cases semicolon : code.isPunct ';' = true
    · exact .inl semicolon
    · repeat' split at ends
      all_goals cases ends

/-- The piece under way is never completed, or it is cut off from what is cut into pieces
after it. -/
theorem piecesFrom_cases (rule : PieceRule) (scan : PieceScan) (code : List CodeToken) :
    (∃ offset, Code.piecesFrom rule (some scan) code = ⟨none, [], some offset⟩) ∨
      ∃ here rest, code = here ++ rest ∧ (rest = [] ∨ Ends here) ∧
        Code.piecesFrom rule (some scan) code =
          { Code.pieces rule rest with here := some here } := by
  induction code generalizing scan with
  | nil =>
      rw [Code.piecesFrom]
      by_cases closed : scan.braces = 0
      · exact .inr ⟨[], [], rfl, .inl rfl, if_pos closed⟩
      · exact .inl ⟨scan.opened, if_neg closed⟩
  | cons first rest ih =>
      rw [Code.piecesFrom]
      cases goes : scan.step rule first rest.head? with
      | none =>
          refine .inr ⟨[first], rest, rfl, .inr (stopsPiece_of_step goes), ?_⟩
          dsimp only
          rw [Code.here_piecesFrom_none]
          rfl
      | some next =>
          obtain ⟨offset, cut⟩ | ⟨here, rest, rfl, ends, cut⟩ := ih next
          · exact .inl ⟨offset, by rw [cut]; rfl⟩
          · refine .inr ⟨first :: here, rest, rfl, ends.imp_right (·.cons first), ?_⟩
            rw [show _ = _ from cut]
            rfl

def blockPieces (rule : PieceRule) (parens opened : Nat) (isOpen : Bool) :
    Option Enclosed → Pieces
  | none => ⟨none, [], some opened⟩
  | some enclosed =>
      let after := Code.piecesFrom rule
        (if isOpen || enclosed.rest.head?.any rule.chains then some ⟨parens, isOpen, 0, opened⟩
        else none) enclosed.rest
      { after with here := after.here.map (enclosed.inside ++ enclosed.closing :: ·) }

theorem blockPieces_push (rule : PieceRule) (parens opened : Nat) (isOpen : Bool)
    (first : CodeToken) (closed : Option Enclosed) :
    blockPieces rule parens opened isOpen (closed.map (Enclosed.push first)) =
      { blockPieces rule parens opened isOpen closed with
        here := (blockPieces rule parens opened isOpen closed).here.map (first :: ·) } := by
  cases closed with
  | none => rfl
  | some enclosed =>
      simp only [Option.map_some, blockPieces, Enclosed.push, Option.map_map]
      rfl

/-- A block is cut off at its closing brace, unless the piece goes on. -/
theorem piecesFrom_block (rule : PieceRule) {parens opened : Nat} {isOpen : Bool} (depth : Nat)
    (code : List CodeToken) :
    Code.piecesFrom rule (some ⟨parens, isOpen, depth + 1, opened⟩) code =
      blockPieces rule parens opened isOpen (Code.close? '{' '}' depth code) := by
  fun_induction Code.close? '{' '}' depth code with
  | case1 depth => rfl
  | case2 depth first rest opens ih =>
      rw [Code.piecesFrom, PieceScan.step, blockPieces_push, ← ih]
      simp only [opens, if_true]
  | case3 first rest opens closes =>
      rw [Code.piecesFrom, PieceScan.step]
      simp only [opens, closes, if_true, blockPieces]
      cases isOpen <;> cases rest.head?.any rule.chains <;> rfl
  | case4 first rest opens closes depth ih =>
      rw [Code.piecesFrom, PieceScan.step, blockPieces_push, ← ih]
      simp [opens, closes]
  | case5 depth first rest opens closes ih =>
      rw [Code.piecesFrom, PieceScan.step, blockPieces_push, ← ih]
      simp [opens, closes]

/-- The place of the last token of a piece under way from the place `i` on. -/
def endOfPiece (i : Nat) (pieces : Pieces) : Run Nat :=
  match pieces.here with
  | some here => .ok (i + here.length - 1)
  | none => .error (.parse (.unbalanced '{' (pieces.unclosed.getD 0)))

theorem endOfPiece_append (i : Nat) (front : List CodeToken) (pieces : Pieces) :
    endOfPiece i { pieces with here := pieces.here.map (front ++ ·) } =
      endOfPiece (i + front.length) pieces := by
  obtain ⟨here, pieces, unclosed⟩ := pieces
  cases here with
  | none => rfl
  | some here => simp [endOfPiece, Nat.add_assoc]

theorem endOfPiece_cons (i : Nat) (first : CodeToken) (pieces : Pieces) :
    endOfPiece i { pieces with here := pieces.here.map (first :: ·) } =
      endOfPiece (i + 1) pieces := endOfPiece_append i [first] pieces

/-- A rule over places says of each place what a rule over tokens says of the token there. -/
structure EndRule.Agrees (rule : EndRule) (pieceRule : PieceRule) (all : List CodeToken) :
    Prop where
  opens : ∀ {i code}, all[i]? = some code → rule.opens i = pieceRule.opens code
  keepsOpen : ∀ {i code}, all[i]? = some code → rule.keepsOpen i = .ok (pieceRule.keepsOpen code)
  chains : ∀ {i code}, all[i]? = some code → rule.chains i = pieceRule.chains code
  brace : ∀ {i : Nat} {code}, all[i]? = some code → code.isPunct '{' = true →
    pieceRule.keepsOpen code = false

theorem EndRule.Agrees.chains_eq {rule : EndRule} {pieceRule : PieceRule}
    {all after : List CodeToken}
    {i j : Nat} (agrees : rule.Agrees pieceRule all) (stretch : Stretch all i after j) :
    (decide (i < j) && rule.chains i) = after.head?.any pieceRule.chains := by
  cases after with
  | nil => simp [stretch.eq_of_nil]
  | cons next rest => simp [stretch.lt, agrees.chains stretch.head]

namespace Tape.Holds

variable {tape : Tape} {all : List CodeToken} {rule : EndRule} {pieceRule : PieceRule}
  {j : Nat} (holds : tape.Holds all)
include holds

theorem endFrom_eq (agrees : rule.Agrees pieceRule all) (positive : 0 < j) (parens opened : Nat)
    (isOpen : Bool) {i : Nat} {part : List CodeToken} (stretch : Stretch all i part j) :
    tape.endFrom rule j parens isOpen i =
      endOfPiece i (Code.piecesFrom pieceRule (some ⟨parens, isOpen, 0, opened⟩) part) := by
  match part with
  | [] =>
      rw [Tape.endFrom, dif_neg (by simp [stretch.eq_of_nil]), sub_of_le positive,
        stretch.eq_of_nil]
      rfl
  | code :: rest =>
      have found := stretch.head
      have next : ∀ parens opened isOpen, tape.endFrom rule j parens isOpen (i + 1) =
          endOfPiece (i + 1) (Code.piecesFrom pieceRule (some ⟨parens, isOpen, 0, opened⟩) rest) :=
        fun parens opened isOpen => endFrom_eq agrees positive parens opened isOpen stretch.tail
      rw [Tape.endFrom, dif_pos stretch.lt, Code.piecesFrom, endOfPiece_cons, PieceScan.step]
      simp only [holds.isPunct_eq found, agrees.keepsOpen found, ok_bind]
      split
      · exact next _ _ _
      split
      · exact next _ _ _
      split
      · exact next _ _ _
      split
      · rw [endOfPiece, Code.here_piecesFrom_none]
        rfl
      split
      · rename_i brace
        have kept := agrees.brace found brace
        simp only [kept, Bool.or_false, piecesFrom_block]
        rw [holds.matching_eq stretch brace, Code.close]
        cases closed : Code.close? '{' '}' 0 rest with
        | none => rfl
        | some enclosed =>
            obtain ⟨inside, closing, after⟩ := enclosed
            have whole : inside ++ [closing] ++ after = rest := by
              simpa [Enclosed.tokens] using Code.tokens_of_close? closed
            have shorter := Code.length_rest_of_close? closed
            have behind := (whole ▸ stretch.tail).append.2
            rw [List.length_append, List.length_singleton, ← Nat.add_assoc] at behind
            have joined : blockPieces pieceRule parens code.start isOpen
                (some ⟨inside, closing, after⟩) =
                  let pieces := Code.piecesFrom pieceRule
                    (if isOpen || after.head?.any pieceRule.chains then
                      some ⟨parens, isOpen, 0, code.start⟩ else none) after
                  { pieces with here := pieces.here.map (inside ++ [closing] ++ ·) } := by
              simp [blockPieces]
            dsimp only [Except.map, lift_ok, ok_bind]
            rw [agrees.chains_eq behind, joined, endOfPiece_append, dif_pos (by omega),
              List.length_append, List.length_singleton, ← Nat.add_assoc]
            cases isOpen || after.head?.any pieceRule.chains with
            | true => exact endFrom_eq agrees positive parens _ isOpen behind
            | false =>
                rw [if_neg Bool.false_ne_true, if_neg Bool.false_ne_true, endOfPiece,
                  Code.here_piecesFrom_none]
                rfl
      · exact next _ _ _
termination_by part.length

theorem pieceEnd_eq (agrees : rule.Agrees pieceRule all) {i : Nat} {first : CodeToken}
    {part : List CodeToken} (stretch : Stretch all i (first :: part) j) :
    (∃ offset, Code.pieces pieceRule (first :: part) = ⟨some [], [], some offset⟩ ∧
      tape.pieceEnd rule i j = .error (.parse (.unbalanced '{' offset))) ∨
    ∃ piece rest, first :: part = piece.tokens ++ rest ∧ (rest = [] ∨ Ends piece.tokens) ∧
      Code.pieces pieceRule (first :: part) =
        { Code.pieces pieceRule rest with pieces := piece :: (Code.pieces pieceRule rest).pieces } ∧
      (Code.piecesFrom pieceRule (some (.start pieceRule first)) (first :: part)).here =
        some piece.tokens ∧
      tape.pieceEnd rule i j = .ok (i + piece.tokens.length - 1) := by
  have found : tape.pieceEnd rule i j =
      endOfPiece i (Code.piecesFrom pieceRule (some (.start pieceRule first)) (first :: part)) := by
    rw [Tape.pieceEnd, agrees.opens stretch.head]
    exact holds.endFrom_eq agrees (Nat.zero_lt_of_lt stretch.lt) 0 0 _ stretch
  have whole : Code.pieces pieceRule (first :: part) =
      let cut := Code.piecesFrom pieceRule (some (.start pieceRule first)) (first :: part)
      ⟨some [], (cut.here.map fun here => ⟨first, here.tail⟩).toList ++ cut.pieces,
        cut.unclosed⟩ := by
    simp only [Code.pieces, Code.piecesFrom, Option.map_map]
    rfl
  rw [found, whole]
  obtain ⟨offset, cut⟩ | ⟨here, rest, split, ends, cut⟩ :=
    piecesFrom_cases pieceRule (.start pieceRule first) (first :: part)
  · exact .inl ⟨offset, by rw [cut]; rfl, by rw [cut]; rfl⟩
  · cases here with
    | nil =>
        -- The first token is never left behind.
        have none := congrArg Pieces.here cut
        rw [Code.piecesFrom] at none
        cases here : (Code.piecesFrom pieceRule
          ((PieceScan.start pieceRule first).step pieceRule first part.head?) part).here <;>
          simp [here] at none
    | cons token here =>
        obtain ⟨rfl, -⟩ := List.cons.inj split
        refine .inr ⟨⟨first, here⟩, rest, split, ends, ?_, by rw [cut]; rfl, ?_⟩
        · rw [cut]
          cases inner : Code.pieces pieceRule rest with
          | mk start pieces unclosed =>
              have fresh : start = some [] := by
                rw [← Code.here_piecesFrom_none pieceRule rest]
                exact congrArg Pieces.here inner.symm
              rw [fresh]
              rfl
        · rw [cut]
          rfl

theorem marked {i : Nat} {code : CodeToken} (found : all[i]? = some code) : code.Marked := by
  obtain ⟨before, after, -, assign, -⟩ := holds.exists_sees found
  exact Code.marked_of_assign assign

theorem marked_of_mem {i : Nat} {part : List CodeToken} (stretch : Stretch all i part j) :
    ∀ token ∈ part, token.Marked := by
  intro token listed
  obtain ⟨n, found⟩ := List.mem_iff_getElem?.mp listed
  have inside := (List.getElem?_eq_some_iff.mp found).1
  exact holds.marked ((stretch.getElem? inside).trans found)

theorem agrees_declarationEnds : tape.declarationEnds.Agrees Code.declarationRule all where
  opens _ := rfl
  keepsOpen found := by
    simp [Tape.declarationEnds, Code.declarationRule, holds.assignAt_eq found]
  chains _ := rfl
  brace found brace := by
    have marked := holds.marked found
    rw [CodeToken.Marked, CodeToken.isPunct_of_isPunct brace] at marked
    exact Bool.eq_false_iff.mpr fun isSome => absurd (marked isSome) (by decide)

theorem agrees_statementEnds : tape.statementEnds.Agrees Code.statementRule all where
  opens found := holds.isWord_eq found _
  keepsOpen found := by
    simp only [Tape.statementEnds, Code.statementRule, holds.assignAt_eq found, ok_bind,
      Option.isSome_map, holds.arrowAt_eq found]
    split <;> simp_all
  chains found := by
    simp only [Tape.statementEnds, Code.statementRule, holds.isWord_eq found,
      holds.isPunct_eq found]
  brace {_ code} found brace := by
    have marked := holds.marked found
    obtain ⟨before, after, -, -, arrow⟩ := holds.exists_sees found
    have angle : code.token.isPunct '>' = false := CodeToken.isPunct_of_isPunct brace '>'
    rw [CodeToken.Marked, CodeToken.isPunct_of_isPunct brace] at marked
    rw [Token.endsArrow, angle] at arrow
    simpa [Code.statementRule, arrow] using marked

end Tape.Holds

end JavaRecords.Indexed
