import JavaRecords.Code.Piece
import JavaRecords.Proofs.Token.Words

set_option autoImplicit false

namespace JavaRecords

namespace CodeToken

def tokens (code : CodeToken) : List Token := code.comments ++ [code.token]

structure Bound (code : CodeToken) : Prop where
  comments : ∀ comment ∈ code.comments, comment.isComment = true
  token : code.token.isComment = false

def word (code : CodeToken) : Word := ⟨code.token.kind, code.text, some code.lead⟩

theorem found_of_comments {comments : List Token}
    (all : ∀ comment ∈ comments, comment.isComment = true) (before : Text) (rest : List Token) :
    Word.found before (comments ++ rest) = Word.found (before ++ Token.spell comments) rest := by
  induction comments generalizing before with
  | nil => simp
  | cons comment comments ih =>
      have here := all comment List.mem_cons_self
      have later := ih fun other listed => all other (List.mem_cons_of_mem _ listed)
      rw [List.cons_append, Word.found, if_pos here, later]
      simp

theorem found_tokens {code : CodeToken} (bound : code.Bound) (before : Text) (rest : List Token) :
    Word.found before (code.tokens ++ rest) =
      ⟨code.token.kind, code.text, some (before ++ code.lead)⟩ :: Word.found [] rest := by
  rw [tokens, List.append_assoc, found_of_comments bound.comments, List.singleton_append,
    Word.found, if_neg (by simp [bound.token])]
  simp [lead, text]

end CodeToken

namespace Code

def flat (code : List CodeToken) : List Token := code.flatMap CodeToken.tokens

@[simp] theorem flat_nil : flat [] = [] := rfl

@[simp] theorem flat_cons (first : CodeToken) (rest : List CodeToken) :
    flat (first :: rest) = first.comments ++ first.token :: flat rest := by
  simp [flat, CodeToken.tokens]

@[simp] theorem flat_append (left right : List CodeToken) :
    flat (left ++ right) = flat left ++ flat right := by
  simp [flat]

/-- The tokens of a run, without the comments and the blank text before the first. -/
def run : List CodeToken → List Token
  | [] => []
  | first :: rest => { first.token with space := [] } :: flat rest

theorem spell_flat (code : List CodeToken) :
    Token.spell (flat code) = code.flatMap fun code => code.lead ++ code.text := by
  induction code with
  | nil => rfl
  | cons first rest ih =>
      rw [flat_cons, Token.spell_append, Token.spell_cons, ih]
      simp [CodeToken.lead, CodeToken.text]

@[simp] theorem spell_run (code : List CodeToken) : Token.spell (run code) = text code := by
  cases code with
  | nil => rfl
  | cons first rest => simp [run, spell_flat, CodeToken.text]

def words : List CodeToken → List Word
  | [] => []
  | first :: rest => ⟨first.token.kind, first.text, none⟩ :: rest.map CodeToken.word

theorem headless_words (code : List CodeToken) : Word.Headless (words code) := by
  cases code with
  | nil => exact Word.headless_nil
  | cons first rest => exact Word.headless_cons _ _ _

def Bound (code : List CodeToken) : Prop := ∀ token ∈ code, token.Bound

theorem Bound.append {left right : List CodeToken} :
    Bound (left ++ right) ↔ Bound left ∧ Bound right := by
  simp only [Bound, List.mem_append, or_imp, forall_and]

theorem Bound.cons {first : CodeToken} {rest : List CodeToken} :
    Bound (first :: rest) ↔ first.Bound ∧ Bound rest := by
  simp [Bound]

theorem found_flat {code : List CodeToken} (bound : Bound code) :
    Word.found [] (flat code) = code.map CodeToken.word := by
  induction code with
  | nil => rfl
  | cons first rest ih =>
      obtain ⟨here, later⟩ := Bound.cons.mp bound
      have one := CodeToken.found_tokens here [] (flat rest)
      rw [flat_cons, List.append_cons, ← CodeToken.tokens, one, ih later, List.map_cons]
      simp [CodeToken.word]

theorem fits_words_run {code : List CodeToken} (bound : Bound code) :
    List.Forall₂ Word.Fits (Word.found [] (run code)) (words code) := by
  cases code with
  | nil => exact .nil
  | cons first rest =>
      obtain ⟨here, later⟩ := Bound.cons.mp bound
      rw [run, Word.found, if_neg (by simpa [Token.isComment] using here.token), found_flat later]
      refine .cons ⟨rfl, rfl, fun _ asked => by cases asked⟩ ?_
      exact List.forall₂_same.mpr fun word _ => Word.Fits.refl word

theorem chain_run {code : List CodeToken} {tail : Text} (chain : Token.Chain (flat code) tail) :
    Token.Chain (run code) tail := by
  cases code with
  | nil => trivial
  | cons first rest =>
      rw [flat_cons, Token.chain_append] at chain
      obtain ⟨_, _, reads, others⟩ := chain
      exact ⟨fun _ listed => absurd listed List.not_mem_nil, reads, others⟩

theorem getLast?_run {code : List CodeToken} {last : Token}
    (found : (run code).getLast? = some last) :
    ∃ final, code.getLast? = some final ∧ last.kind = final.token.kind ∧
      last.text = final.text := by
  cases code with
  | nil => cases found
  | cons first rest =>
      rcases List.eq_nil_or_concat rest with rfl | ⟨front, final, rfl⟩
      · cases found
        exact ⟨first, rfl, rfl, rfl⟩
      · rw [List.concat_eq_append] at *
        have isFinal : (first :: (front ++ [final])).getLast? = some final := by
          rw [← List.cons_append, List.getLast?_concat]
        simp only [run, flat_append, flat_cons, flat_nil, List.getLast?_cons, List.getLast?_append,
          Option.some_or, Option.getD_some, Option.some.injEq] at found
        subst found
        exact ⟨final, isFinal, rfl, rfl⟩

theorem chain_run_of_loose {code : List CodeToken} {tail other : Text}
    (chain : Token.Chain (run code) tail) (bound : Bound code) (loose : Token.Loose other) :
    Token.Chain (run code) other := by
  apply chain.swap
  intro last isLast
  obtain ⟨front, split⟩ := List.getLast?_eq_some_iff.mp isLast
  rw [split, Token.chain_append] at chain
  obtain ⟨final, isFinal, kind, _⟩ := getLast?_run isLast
  have code := (bound final (List.mem_of_getLast? isFinal)).token
  refine chain.2.2.1.of_looser ?_ (loose.looser _)
  intro line
  simp [Token.isComment, ← kind, line, TokenKind.isComment] at code

theorem flat_bindComments (pending tokens : List Token) :
    ((bindComments pending tokens).1.flatMap fun entry => entry.1 ++ [entry.2])
      ++ (bindComments pending tokens).2 = pending ++ tokens := by
  induction tokens generalizing pending with
  | nil => simp [bindComments]
  | cons token rest ih =>
      rw [bindComments]
      split
      · rw [ih]
        simp
      · simp only [List.flatMap_cons, List.append_assoc, ih]
        simp

theorem bound_bindComments (pending tokens : List Token)
    (comments : ∀ comment ∈ pending, comment.isComment = true) :
    (∀ entry ∈ (bindComments pending tokens).1,
      (∀ comment ∈ entry.1, comment.isComment = true) ∧ entry.2.isComment = false) ∧
      ∀ comment ∈ (bindComments pending tokens).2, comment.isComment = true := by
  induction tokens generalizing pending with
  | nil => exact ⟨fun _ listed => absurd listed List.not_mem_nil, comments⟩
  | cons token rest ih =>
      rw [bindComments]
      split
      · rename_i isComment
        apply ih
        intro comment listed
        rcases List.mem_append.mp listed with before | here
        · exact comments comment before
        · rw [List.mem_singleton.mp here]
          exact isComment
      · rename_i isCode
        obtain ⟨entries, tail⟩ := ih [] fun _ listed => absurd listed List.not_mem_nil
        refine ⟨?_, tail⟩
        intro entry listed
        rcases List.mem_cons.mp listed with rfl | later
        · exact ⟨comments, by simpa using isCode⟩
        · exact entries entry later

theorem map_markOperators (before : List Token) (bound : List (List Token × Token)) :
    (markOperators before bound).map (fun code => (code.comments, code.token)) = bound := by
  induction bound generalizing before with
  | nil => rfl
  | cons entry rest ih => simp only [markOperators, List.map_cons, ih]

/-- The tokens of a source are its code tokens with their comments, and the comments after them. -/
theorem flat_ofTokens (tokens : List Token) :
    flat (Code.ofTokens tokens).tokens ++ (Code.ofTokens tokens).tail = tokens := by
  have joined := flat_bindComments [] tokens
  have same := map_markOperators [] (bindComments [] tokens).1
  have flattened : flat (markOperators [] (bindComments [] tokens).1) =
      (bindComments [] tokens).1.flatMap fun entry => entry.1 ++ [entry.2] := by
    nth_rewrite 2 [← same]
    rw [List.flatMap_map]
    rfl
  rw [List.nil_append] at joined
  rw [← flattened] at joined
  exact joined

theorem bound_ofTokens (tokens : List Token) :
    Bound (Code.ofTokens tokens).tokens ∧
      ∀ comment ∈ (Code.ofTokens tokens).tail, comment.isComment = true := by
  obtain ⟨entries, tail⟩ :=
    bound_bindComments [] tokens fun _ listed => absurd listed List.not_mem_nil
  refine ⟨?_, tail⟩
  intro code listed
  have same := map_markOperators [] (bindComments [] tokens).1
  have entry := entries (code.comments, code.token) (by
    rw [← same]
    exact List.mem_map_of_mem (f := fun code => (code.comments, code.token)) listed)
  exact ⟨entry.1, entry.2⟩

theorem filter_flat {code : List CodeToken} (bound : Bound code) :
    (flat code).filter (fun token => !token.isComment) = code.map CodeToken.token := by
  induction code with
  | nil => rfl
  | cons first rest ih =>
      obtain ⟨here, later⟩ := Bound.cons.mp bound
      have none : first.comments.filter (fun token => !token.isComment) = [] := by
        apply List.filter_eq_nil_iff.mpr
        intro comment listed
        simp [here.comments comment listed]
      rw [flat_cons, List.filter_append, none, List.filter_cons, ih later]
      simp [here.token]

/-- Where nothing is left open, the pieces are all of the tokens. -/
theorem flatMap_piecesFrom (rule : PieceRule) (scan : Option PieceScan) (code : List CodeToken)
    (closed : (piecesFrom rule scan code).unclosed = none) :
    ∃ here, (piecesFrom rule scan code).here = some here ∧
      here ++ (piecesFrom rule scan code).pieces.flatMap Piece.tokens = code ∧
      (scan = none → here = []) := by
  fun_induction piecesFrom rule scan code with
  | case1 => exact ⟨[], rfl, rfl, fun _ => rfl⟩
  | case2 => exact ⟨[], rfl, rfl, fun _ => rfl⟩
  | case3 => cases closed
  | case4 first rest after ih =>
      obtain ⟨here, found, joined, _⟩ := ih closed
      refine ⟨[], rfl, ?_, fun _ => rfl⟩
      change ((after.here.map (Piece.mk first)).toList ++ after.pieces).flatMap Piece.tokens = _
      rw [found, Option.map_some, Option.toList_some, List.singleton_append, List.flatMap_cons]
      exact congrArg (first :: ·) joined
  | case5 scan first rest after ih =>
      obtain ⟨here, found, joined, _⟩ := ih closed
      refine ⟨first :: here, ?_, by rw [List.cons_append, joined], fun absent => by cases absent⟩
      change after.here.map (first :: ·) = _
      rw [found]
      rfl

theorem flatMap_pieces {rule : PieceRule} {code : List CodeToken}
    (closed : (pieces rule code).unclosed = none) :
    (pieces rule code).pieces.flatMap Piece.tokens = code := by
  obtain ⟨here, _, joined, empty⟩ := flatMap_piecesFrom rule none code closed
  rw [empty rfl, List.nil_append] at joined
  exact joined

end Code

namespace Piece

theorem tokens_ne_nil (piece : Piece) : piece.tokens ≠ [] := List.cons_ne_nil _ _

theorem getLast?_tokens (piece : Piece) : piece.tokens.getLast? = some piece.last := by
  unfold tokens last
  rw [List.getLast?_cons]
  simp [List.getLastD_eq_getLast?]

theorem dropLast_append_last (piece : Piece) :
    piece.tokens.dropLast ++ [piece.last] = piece.tokens := by
  have isLast := piece.getLast?_tokens
  exact List.dropLast_append_getLast? _ (by rw [isLast]; rfl)

end Piece

end JavaRecords
