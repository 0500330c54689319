import JavaRecords.Proofs.Code.Reads
import JavaRecords.Proofs.Conversion.Code
import JavaRecords.Proofs.Parse.Continued
import JavaRecords.Proofs.Parse.Proper

set_option autoImplicit false

namespace JavaRecords

namespace Code

theorem words_headerPrefix {taken : List CodeToken} {keyword : CodeToken} {tail : Text}
    (chain : Token.Chain (flat (taken ++ [keyword])) tail) (bound : Bound (taken ++ [keyword])) :
    (headerPrefix taken (some keyword)).words = words taken := by
  unfold headerPrefix
  cases taken with
  | nil => simp [words]
  | cons first rest =>
      simp only [List.isEmpty_cons, Bool.false_eq_true, ↓reduceIte, Option.map_some,
        Option.getD_some]
      have comments : ∀ comment ∈ keyword.comments, comment.isComment = true :=
        (bound keyword (by simp)).comments
      have keywordFlat : flat [keyword] = keyword.comments ++ [keyword.token] := by simp
      rw [flat_append, keywordFlat, Token.chain_append, Token.chain_append] at chain
      obtain ⟨chainTaken, chainComments, blank, _, _⟩ := chain
      have inSource : Token.Chain (run (first :: rest) ++ keyword.comments)
          (keyword.token.space ++ (keyword.token.text ++ tail)) := by
        refine Token.chain_append.mpr ⟨?_, ?_⟩
        · simpa using chain_run chainTaken
        · simpa using chainComments
      have isText : text (first :: rest) ++ keyword.lead =
          Token.spell (run (first :: rest) ++ keyword.comments) ++ keyword.token.space := by
        simp [CodeToken.lead]
      rw [isText, Text.words_spell (chain_cut inSource) blank, Word.found_append,
        Token.found_of_all comments, List.append_nil]
      exact headless_found_run (Bound.append.mp bound).1

end Code

/-- A record whose header has the modifiers `taken`, and brackets around its components only. -/
structure RecordDecl.Regular (record : RecordDecl) (taken : List CodeToken) : Prop where
  headerPrefix : record.headerPrefix.words = Code.words taken
  typeParams : ∀ word ∈ (record.typeParams.getD []).words, word.isPlain = true
  angle : ∀ word ∈ (record.typeParams.getD []).words.head?, word.isPunct '<' = true
  components : ∀ component ∈ record.components, Word.Nested component.words
  interfaces : ∀ word ∈ record.clauseWords, word.isPlain = true

theorem Word.nested_intercalate : (parts : List (List Word)) → (∀ part ∈ parts, Nested part) →
    Nested (List.intercalate [Word.mark ','] parts)
  | [], _ => nested_nil
  | [part], each => by simpa using each part List.mem_cons_self
  | part :: next :: rest, each => by
      have own := each part List.mem_cons_self
      have comma : Nested [Word.mark ','] := by decide
      rw [List.intercalate_cons_cons]
      exact (own.append comma).append
        (nested_intercalate (next :: rest) fun other listed =>
          each other (List.mem_cons_of_mem _ listed))

namespace RecordDecl

variable {record : RecordDecl} {taken : List CodeToken}

theorem Regular.nest_headerWords (regular : record.Regular taken)
    (nested : Token.Nested (taken.map CodeToken.token)) :
    Word.nest [] record.headerWords = some ['{'] := by
  have modifiers : Word.Nested record.headerPrefix.words := by
    rw [regular.headerPrefix]
    exact (Code.reads_words taken).nested.mp nested
  have named : Word.Nested [Word.name "record".toList, Word.name record.name] := by
    refine Word.nested_of_plain fun word listed => ?_
    simp only [List.mem_cons, List.not_mem_nil, or_false] at listed
    rcases listed with rfl | rfl <;> exact Word.isPlain_name _
  have components : Word.Nested (Word.mark '(' :: (List.intercalate [Word.mark ',']
      (record.components.map RecordComponent.words) ++ [Word.mark ')'])) := by
    have inside := Word.nested_intercalate (record.components.map RecordComponent.words)
      fun part listed => by
        obtain ⟨component, among, rfl⟩ := List.mem_map.mp listed
        exact regular.components component among
    rw [← List.singleton_append, Word.Nested, Word.nest_append,
      show Word.nest [] [Word.mark '('] = some ['('] by decide, Option.bind_some, Word.nest_append,
      inside.nest]
    decide
  have before := ((modifiers.append named).append
    ((Word.nested_of_plain regular.typeParams).append components)).append
      (Word.nested_of_plain regular.interfaces)
  have split : record.headerWords = (record.headerPrefix.words ++
      [Word.name "record".toList, Word.name record.name] ++ ((record.typeParams.getD []).words ++
        Word.mark '(' :: (List.intercalate [Word.mark ','] (record.components.map
          RecordComponent.words) ++ [Word.mark ')'])) ++ record.clauseWords) ++
            [Word.mark '{'] := by
    simp [headerWords]
  rw [split, Word.nest_append, before.nest]
  decide

end RecordDecl

namespace Code

/-- A token that a record in the place of a class starts with: that of the class, or the keyword. -/
def Begins (first other : CodeToken) : Prop := first.Same other ∨ other.isWord "record" = true

theorem ends_of_block {block : List CodeToken} {final : CodeToken} (start : Nat)
    (nested : Token.Nested (block.map CodeToken.token)) (isFinal : final.isPunct '}' = true) :
    Ends ⟨0, false, 1, start⟩ (block ++ [final]) := by
  refine Ends.across (PieceScan.across_braces nested 0 false start) (.last ?_)
  have same := CodeToken.isPunct_of_isPunct isFinal
  simp [PieceScan.step, same, declarationRule]

/-- The scan of a record goes over its components, and ends with the brace of its body. -/
theorem ends_of_record {params inner clause block : List CodeToken}
    {keyword name paren closing opening final : CodeToken}
    (marked : ∀ token ∈ keyword :: name :: (params ++ paren :: (inner ++ closing ::
      (clause ++ opening :: (block ++ [final])))), token.Marked)
    (isKeyword : keyword.isIdent = true) (isName : name.isIdent = true)
    (plainParams : ∀ token ∈ params, token.token.isPlain = true)
    (isParen : paren.isPunct '(' = true) (nestedInner : Token.Nested (inner.map CodeToken.token))
    (isClosing : closing.isPunct ')' = true)
    (plainClause : ∀ token ∈ clause, token.token.isPlain = true)
    (isOpening : opening.isPunct '{' = true)
    (nestedBlock : Token.Nested (block.map CodeToken.token)) (isFinal : final.isPunct '}' = true) :
    Ends .fresh (keyword :: name :: (params ++ paren :: (inner ++ closing ::
      (clause ++ opening :: (block ++ [final]))))) := by
  have closes : (PieceScan.within 1).step declarationRule closing none = some .fresh := by
    have same := CodeToken.isPunct_of_isPunct isClosing
    simp [PieceScan.step, PieceScan.within, PieceScan.fresh, same]
  refine .step (PieceScan.step_fresh_of_ident (marked _ (by simp)) isKeyword)
    (.step (PieceScan.step_fresh_of_ident (marked _ (by simp)) isName) ?_)
  refine .across (PieceScan.across_fresh_of_plain
    (fun token listed => marked token (by simp [listed])) plainParams)
    (.step (PieceScan.step_fresh_of_paren isParen) ?_)
  refine .across (PieceScan.across_within nestedInner) (.step closes ?_)
  refine .across (PieceScan.across_fresh_of_plain
    (fun token listed => marked token (by simp [listed])) plainClause)
    (.step (PieceScan.step_fresh_of_brace isOpening) ?_)
  exact ends_of_block opening.start nestedBlock isFinal

/-- After the name of a record, its type parameters or its components are opened. -/
theorem exists_opened {record : RecordDecl} {taken params : List CodeToken} {paren : CodeToken}
    (regular : record.Regular taken) (isParen : paren.isPunct '(' = true)
    (reads : Reads params (record.typeParams.getD []).words) (tail : List CodeToken) :
    ∃ next more, params ++ paren :: tail = next :: more ∧
      (next.isPunct '(' || next.isPunct '<') = true := by
  cases params with
  | nil => exact ⟨paren, _, rfl, by rw [isParen]; rfl⟩
  | cons angle params =>
      obtain ⟨word, words, fits, _, isWords⟩ := List.forall₂_cons_left_iff.mp reads
      have isAngle := regular.angle word (by rw [isWords]; rfl)
      rw [← isPunct_of_fits fits] at isAngle
      exact ⟨angle, _, rfl, by rw [isAngle, Bool.or_true]⟩

/-- A record starts with the first modifier of its class, or with its keyword. -/
theorem begins_of_alike {taken rest front others : List CodeToken} {keyword first : CodeToken}
    (alike : Alike taken front) (isRecord : keyword.isWord "record" = true)
    (whole : front ++ keyword :: rest = first :: others) {code : List CodeToken} :
    ∀ start ∈ (taken ++ code).head?, Begins start first := by
  intro start isStart
  cases alike.tokens with
  | nil =>
      cases whole
      exact .inr isRecord
  | cons same _ =>
      cases whole
      cases isStart
      exact .inl same

theorem reads_record {record : RecordDecl} {taken rest code : List CodeToken} {found : Modifiers}
    {body : List Word} (regular : record.Regular taken) (standing : Standing taken)
    (read : modifiers (taken ++ rest) = .ok ⟨found, taken, rest⟩) (again : Standing code)
    (reads : Reads code (record.headerWords ++ (body ++ [Word.mark '}'])))
    (nested : Word.Nested body) :
    ∃ piece : Piece, piece.tokens = code ∧ DeclaresRecord piece ∧ Ends .fresh code ∧
      ∀ first ∈ (taken ++ rest).head?, Begins first piece.first := by
  rw [RecordDecl.headerWords, regular.headerPrefix] at reads
  simp only [List.append_assoc, List.cons_append, List.nil_append] at reads
  -- the parts of the record
  obtain ⟨front, back, rfl, readsFront, reads⟩ := reads.append
  obtain ⟨keyword, back, rfl, keywordKind, keywordText, _, reads⟩ := reads.head
  obtain ⟨name, back, rfl, nameKind, _, _, reads⟩ := reads.head
  obtain ⟨params, back, rfl, readsParams, reads⟩ := reads.append
  obtain ⟨paren, back, rfl, _, _, isParen, reads⟩ := reads.head
  obtain ⟨inner, back, rfl, readsInner, reads⟩ := reads.append
  obtain ⟨closing, back, rfl, _, _, isClosing, reads⟩ := reads.head
  obtain ⟨clause, back, rfl, readsClause, reads⟩ := reads.append
  obtain ⟨opening, back, rfl, _, _, isOpening, reads⟩ := reads.head
  obtain ⟨block, back, rfl, readsBlock, reads⟩ := reads.append
  obtain ⟨final, back, rfl, _, _, isFinal, reads⟩ := reads.head
  cases reads
  have isRecord : keyword.isWord "record" = true := by
    have text : keyword.token.text = "record".toList := keywordText
    have kind : keyword.token.kind = .ident := keywordKind
    simp [CodeToken.isWord, Token.isWord, kind, text]
  have isName : name.isIdent = true := by
    have kind : name.token.kind = .ident := nameKind
    simp [CodeToken.isIdent, Token.isIdent, kind]
  have alike : Alike taken front := by
    refine standing.alike (again.left fun _ _ _ _ isNext => ?_) (reads_iff.mp readsFront)
    cases isNext
    exact CodeToken.isPunct_of_isIdent (CodeToken.isIdent_of_isWord isRecord) '='
  have inside := Word.nested_intercalate (record.components.map RecordComponent.words)
    fun part listed => by
      obtain ⟨component, among, rfl⟩ := List.mem_map.mp listed
      exact regular.components component among
  have marked := again.marks.marked
  have ends := ends_of_record (fun token listed => marked token (List.mem_append_right _ listed))
    (CodeToken.isIdent_of_isWord isRecord) isName (readsParams.plain_iff.mpr regular.typeParams)
    (isParen '(') (readsInner.nested.mpr inside) (isClosing ')')
    (readsClause.plain_iff.mpr regular.interfaces) (isOpening '{')
    (readsBlock.nested.mpr nested) (isFinal '}')
  obtain ⟨next, more, split, isNext⟩ := exists_opened regular (isParen '(') readsParams
    (inner ++ closing :: (clause ++ opening :: (block ++ [final])))
  rw [split] at ends marked ⊢
  have follows : Follows (keyword :: name :: next :: more) :=
    follows_word isRecord (by decide) (by decide)
  have goes := across_modifiers marked (modifiers_again read alike follows)
  obtain ⟨first, others, whole⟩ : ∃ first others, front ++ keyword :: name :: next :: more =
      first :: others := List.exists_cons_of_ne_nil (by simp)
  exact ⟨⟨first, others⟩, whole.symm, declaresRecord_of_parts read alike isRecord isName isNext
    whole.symm, Ends.across goes ends, begins_of_alike alike isRecord whole⟩

/-- What is read from the header of a class and other words for its body declares the class with
another body, and ends with its last token. -/
theorem reads_kept {site : Site} {shape : ClassShape} {code : List CodeToken} {body : List Word}
    (layout : ClassLayout site.piece shape)
    (plain : ∀ code ∈ layout.header, code.token.isPlain = true)
    (standing : Standing site.piece.tokens) (again : Standing code)
    (reads : Reads code (words (site.front shape) ++ (body ++ [Word.mark '}'])))
    (nested : Word.Nested body) :
    ∃ (piece : Piece) (other : ClassShape), piece.tokens = code ∧ Declares piece other ∧
      shape.Recurs other ∧ Reads other.inside body ∧ Standing other.inside ∧ Ends .fresh code ∧
      Begins site.piece.first piece.first := by
  obtain ⟨front, back, rfl, readsFront, reads⟩ := reads.append
  obtain ⟨inside, back, rfl, readsInside, reads⟩ := reads.append
  obtain ⟨closing, back, rfl, _, _, isClosing, reads⟩ := reads.head
  cases reads
  have stops : Token.Stops (front.map CodeToken.token).reverse :=
    layout.stops_front.congr (List.forall₂_reverse_iff.mpr ((reads_words _).same readsFront))
  have alike : Alike (site.front shape) front := by
    refine Standing.alike ?_ (again.left (apart_of_stops stops _)) (reads_iff.mp readsFront)
    rw [layout.tokens_eq] at standing
    exact standing.left (apart_of_stops layout.stops_front _)
  have standingInside : Standing inside := by
    refine (again.right stops).left fun _ _ _ _ isNext => ?_
    cases isNext
    exact isClosing '='
  have ends : Ends .fresh (front ++ (inside ++ [closing])) := by
    obtain ⟨⟨parens, isOpen, braces, opened⟩, goes, level⟩ :=
      PieceScan.across_same (.refl _) alike.tokens
        (layout.across_front plain standing.marks.marked)
    obtain ⟨isParens, isOpens, isBraces⟩ := level
    dsimp only at isParens isOpens isBraces
    subst isParens isOpens isBraces
    exact Ends.across goes (ends_of_block opened (readsInside.nested.mpr nested) (isClosing '}'))
  obtain ⟨first, others, isFront⟩ := List.exists_cons_of_ne_nil layout.front_ne_nil
  have isFirst : site.piece.first = first := by
    have tokens := layout.tokens_eq
    rw [isFront] at tokens
    exact (List.cons.inj tokens).1
  have tokens := alike.tokens
  rw [isFront] at tokens
  obtain ⟨start, rest, same, _, rfl⟩ := List.forall₂_cons_left_iff.mp tokens
  obtain ⟨other, declares, recurs, rfl⟩ := @ClassLayout.declares_again _ _ layout _ inside closing
    ⟨start, rest ++ (inside ++ [closing])⟩ alike (isClosing '}') rfl
  exact ⟨_, other, rfl, declares, recurs, readsInside, standingInside, ends, .inl (isFirst ▸ same)⟩

end Code

namespace Outline

variable {job : Printing}

/-- The declarations were read from nested code, and neither the header of a class nor that of its
record has brackets that a declaration could end with. -/
def Regular (job : Printing) : Outline → Prop
  | nil => True
  | leaf site _ rest => Code.Proper site.piece.tokens ∧ rest.Regular job
  | type site shape members rest =>
      Code.Proper site.piece.tokens ∧
      (∃ layout : ClassLayout site.piece shape,
        (∀ code ∈ layout.header, code.token.isPlain = true) ∧
        ∀ record, job.record? site.id = some record → record.Regular layout.taken) ∧
      Code.Cut members.pieces ∧ members.Regular job ∧ rest.Regular job

theorem nested_members {entries : List (NodeId × List Word)}
    (nested : ∀ entry ∈ entries, Word.Nested entry.2) (ids : List NodeId) :
    Word.Nested (ids.filterMap fun id => List.lookup id entries).flatten := by
  refine Word.nested_flatten fun part listed => ?_
  obtain ⟨id, _, found⟩ := List.mem_filterMap.mp listed
  exact nested _ (mem_of_lookup found)

/-- The words of each declaration after a conversion are nested. -/
theorem Regular.nested_entries {outline : Outline} (regular : outline.Regular job) :
    ∀ entry ∈ outline.entries job, Word.Nested entry.2 := by
  induction outline with
  | nil => exact fun _ listed => absurd listed List.not_mem_nil
  | leaf site node rest ih =>
      obtain ⟨proper, others⟩ := regular
      intro entry listed
      rcases List.mem_cons.mp listed with rfl | later
      · exact (Code.reads_words _).nested.mp proper.nested
      · exact ih others entry later
  | type site shape members rest ihMembers ihRest =>
      obtain ⟨proper, ⟨layout, plain, record⟩, _, inner, others⟩ := regular
      intro entry listed
      rcases List.mem_cons.mp listed with rfl | later
      · have marked := proper.marks.marked
        have closes : Word.nest ['{'] [Word.mark '}'] = some [] := by decide
        cases converted : job.record? site.id with
        | some made =>
            have header := (record made converted).nest_headerWords
              (layout.nested_taken marked proper.nested)
            have body := nested_members (ihMembers inner) made.members
            simp only [classWords, converted]
            rw [Word.Nested, Word.nest_append, header, Option.bind_some, Word.nest_append,
              body.nest]
            exact closes
        | none =>
            have header := layout.nest_front plain marked proper.nested
            rw [(Code.reads_words _).nest] at header
            have body : Word.Nested ((members.entries job).flatMap Prod.snd) :=
              Word.nested_flatten fun part listed => by
                obtain ⟨entry, among, rfl⟩ := List.mem_map.mp listed
                exact ihMembers inner entry among
            simp only [classWords, converted]
            rw [Word.Nested, Word.nest_append, header, Option.bind_some, Word.nest_append,
              body.nest]
            exact closes
      · exact ihRest others entry later

/-- The declarations of a converted source as they are read again: a declaration that is no class as
it was, a class that stays with its members, and a record in the place of each other class. -/
inductive Again (job : Printing) : Outline → List Piece → Prop
  | nil : Again job .nil []
  | leaf {site : Site} {node : Node} {rest : Outline} {piece : Piece} {pieces : List Piece}
      (alike : Code.Alike site.piece.tokens piece.tokens) (others : Again job rest pieces) :
      Again job (.leaf site node rest) (piece :: pieces)
  | kept {site : Site} {shape other : ClassShape} {members rest : Outline} {piece : Piece}
      {inner pieces : List Piece} (stays : job.record? site.id = none)
      (begins : Code.Begins site.piece.first piece.first) (declares : Code.Declares piece other)
      (recurs : shape.Recurs other)
      (inside : Code.pieces Code.declarationRule other.inside = ⟨some [], inner, none⟩)
      (body : Again job members inner) (others : Again job rest pieces) :
      Again job (.type site shape members rest) (piece :: pieces)
  | converted {site : Site} {shape : ClassShape} {members rest : Outline} {piece : Piece}
      {pieces : List Piece} (replaced : (job.record? site.id).isSome = true)
      (begins : Code.Begins site.piece.first piece.first) (declares : Code.DeclaresRecord piece)
      (others : Again job rest pieces) : Again job (.type site shape members rest) (piece :: pieces)

/-- A class that stays or became a record, and is read again. -/
theorem Regular.again_class {site : Site} {shape : ClassShape} {members rest : Outline}
    {pieces : List Piece} {own : List CodeToken}
    (regular : Outline.Regular job (.type site shape members rest)) (standing : Code.Standing own)
    (reads : Code.Reads own (classWords job site shape (members.entries job)))
    (inner : ∀ code, Code.Standing code → Code.Reads code (members.words job) →
      ∃ pieces, pieces.flatMap Piece.tokens = code ∧ Code.Cut pieces ∧ Again job members pieces)
    (others : Again job rest pieces) :
    ∃ piece : Piece, piece.tokens = own ∧ Code.Ends .fresh piece.tokens ∧
      Again job (.type site shape members rest) (piece :: pieces) := by
  obtain ⟨proper, ⟨layout, plain, record⟩, _, regularMembers, _⟩ := regular
  have nested := regularMembers.nested_entries
  unfold classWords at reads
  cases converted : job.record? site.id with
  | some made =>
      rw [converted] at reads
      have front : Code.Standing layout.taken := by
        have whole := proper.toStanding
        rw [layout.tokens] at whole
        refine whole.left fun _ _ _ _ isNext => ?_
        cases isNext
        exact CodeToken.isPunct_of_isIdent (CodeToken.isIdent_of_isWord layout.isClass) '='
      have read := layout.modifiers
      rw [layout.tokens] at read
      obtain ⟨piece, rfl, declares, ends, begins⟩ := Code.reads_record (record made converted) front
        read standing reads (nested_members nested made.members)
      rw [← layout.tokens] at begins
      exact ⟨piece, rfl, ends, .converted (by rw [converted]; rfl) (begins _ rfl) declares others⟩
  | none =>
      rw [converted] at reads
      have body : Word.Nested ((members.entries job).flatMap Prod.snd) :=
        Word.nested_flatten fun part listed => by
          obtain ⟨entry, among, rfl⟩ := List.mem_map.mp listed
          exact nested entry among
      obtain ⟨piece, other, rfl, declares, recurs, readsInside, standingInside, ends, begins⟩ :=
        Code.reads_kept layout plain proper.toStanding standing reads body
      obtain ⟨pieces, joined, cut, again⟩ := inner _ standingInside readsInside
      exact ⟨piece, rfl, ends, .kept converted begins declares recurs
        (by rw [← joined]; exact cut.pieces_eq) again others⟩

/-- A class ends with a brace, whether it stays or becomes a record. -/
theorem stops_of_classWords {site : Site} {shape : ClassShape} {own : List CodeToken}
    {entries : List (NodeId × List Word)}
    (reads : Code.Reads own (classWords job site shape entries)) :
    Token.Stops (own.map CodeToken.token).reverse := by
  have closed : ∃ words, classWords job site shape entries = words ++ [Word.mark '}'] := by
    unfold classWords
    cases job.record? site.id with
    | some record => exact ⟨_, (List.append_assoc _ _ _).symm⟩
    | none => exact ⟨_, (List.append_assoc _ _ _).symm⟩
  obtain ⟨words, isWords⟩ := closed
  rw [isWords] at reads
  obtain ⟨front, back, rfl, _, readsLast⟩ := reads.append
  obtain ⟨last, rest, rfl, _, _, isBrace, none⟩ := readsLast.head
  cases none
  rw [List.map_append, List.reverse_append]
  intro previous isLast
  cases isLast
  exact .inr (.inr (isBrace '}'))

theorem eq_nil_of_pieces {outline : Outline} (none : outline.pieces = []) : outline = .nil := by
  cases outline with
  | nil => rfl
  | leaf => cases none
  | type => cases none

/-- Code that is read from the words of declarations after a conversion is cut into declarations
again. -/
theorem Regular.again {outline : Outline} (regular : outline.Regular job)
    (cut : Code.Cut outline.pieces) {code : List CodeToken} (standing : Code.Standing code)
    (reads : Code.Reads code (outline.words job)) :
    ∃ pieces, pieces.flatMap Piece.tokens = code ∧ Code.Cut pieces ∧ Again job outline pieces := by
  induction outline generalizing code with
  | nil =>
      cases reads
      exact ⟨[], rfl, .nil, .nil⟩
  | leaf site node rest ih =>
      obtain ⟨proper, others⟩ := regular
      obtain ⟨own, back, rfl, readsOwn, readsBack⟩ := Code.Reads.append reads
      have cutRest := cut.tail
      have alikeOf : Code.Standing own → Code.Alike site.piece.tokens own := fun standingOwn =>
        proper.toStanding.alike standingOwn (Code.reads_iff.mp readsOwn)
      rw [pieces] at cut
      generalize isRest : rest.pieces = remaining at cut
      cases cut with
      | last completes =>
          -- the declaration runs to the end of the code
          have none := eq_nil_of_pieces isRest
          subst none
          cases readsBack
          rw [List.append_nil] at standing ⊢
          have alike := alikeOf standing
          obtain ⟨piece, rfl⟩ := alike.exists_piece
          exact ⟨[piece], by simp, .last (completes.same (.refl _) alike.tokens), .leaf alike .nil⟩
      | cons ends _ =>
          have stops : Token.Stops (own.map CodeToken.token).reverse :=
            ends.stops.congr (List.forall₂_reverse_iff.mpr ((Code.reads_words _).same readsOwn))
          have alike := alikeOf (standing.left (Code.apart_of_stops stops _))
          obtain ⟨piece, rfl⟩ := alike.exists_piece
          obtain ⟨pieces, rfl, cutPieces, again⟩ :=
            ih others cutRest (standing.right stops) readsBack
          exact ⟨piece :: pieces, rfl, .cons (ends.same (.refl _) alike.tokens) cutPieces,
            .leaf alike again⟩
  | type site shape members rest ihMembers ihRest =>
      obtain ⟨own, back, rfl, readsOwn, readsBack⟩ := Code.Reads.append reads
      have stops := stops_of_classWords readsOwn
      obtain ⟨pieces, rfl, cutPieces, again⟩ :=
        ihRest regular.2.2.2.2 cut.tail (standing.right stops) readsBack
      obtain ⟨piece, rfl, ends, isClass⟩ := regular.again_class
        (standing.left (Code.apart_of_stops stops _)) readsOwn
        (fun code => ihMembers regular.2.2.2.1 regular.2.2.1) again
      exact ⟨piece :: pieces, rfl, .cons ends cutPieces, isClass⟩

end Outline

end JavaRecords
