import JavaRecords.Parse.Layout
import JavaRecords.Proofs.Indexed.Lexer
import JavaRecords.Proofs.Indexed.Tape
import JavaRecords.Proofs.Token.Between

set_option autoImplicit false

namespace JavaRecords.Indexed

open Code (flat)

def lastNewline? : Text → Option Nat
  | [] => none
  | c :: rest =>
      match lastNewline? rest with
      | some offset => some (c.utf8Size + offset)
      | none => if c = '\n' then some 0 else none

def lineStart (text : Text) : Nat :=
  match lastNewline? text with
  | some offset => offset + 1
  | none => 0

/-- The first of some comments, from the byte offset `cursor` on, that start before `limit`, on the
line of the comment before. Gives the offset where the last of them stops too. -/
def trailingFrom (source : Text) (limit cursor : Nat) : List Token → Run (List Comment × Nat)
  | [] => return ([], cursor)
  | comment :: rest =>
      if limit ≤ comment.start then return ([], cursor)
      else do
        let gap ← cut source cursor comment.start
        if gap.contains '\n' || !gap.all Text.isSpace then return ([], cursor)
        else if comment.kind == .lineComment then return ([.ofToken comment], comment.stop)
        else
          let (comments, stop) ← trailingFrom source limit comment.stop rest
          return (.ofToken comment :: comments, stop)

namespace Tape

variable (tape : Tape)

/-- The comments from the offset `start` on that stop at the offset `stop` or before it. -/
def commentsBetween (start stop : Nat) : List Comment :=
  ((tape.comments.dropWhile fun comment => comment.start < start).takeWhile fun comment =>
    comment.stop ≤ stop).map .ofToken

/-- The comments after the offset `stop` on its line that start before `limit`. -/
def trailing (stop limit : Nat) : Run (List Comment × Nat) :=
  trailingFrom tape.source limit stop (tape.comments.dropWhile fun comment => comment.start < stop)

/-- The blank text before an offset on its line, or `otherwise` if the line does not start with
blank text only. -/
def indentOf (offset : Nat) (otherwise : Text) : Run Text := do
  let before ← cut tape.source 0 offset
  let line ← cut tape.source (lineStart before) offset
  return if line.all Text.isSpace then line else otherwise

/-- The declaration from the token `first` to the token `last` in its source, with its comments. -/
def item (cursor first last limit : Nat) (indent : Text) : Run Placed := do
  let start := (← tape.token first).start
  let stop := (← tape.token last).stop
  let leading := tape.commentsBetween cursor start
  let (trailing, trailingStop) ← tape.trailing stop limit
  let text ← tape.spanText first last
  let indent ← tape.indentOf start indent
  let range ← range start stop
  let extent ← Indexed.range cursor trailingStop
  return ⟨⟨text, indent, range, extent⟩, leading, trailing⟩

end Tape

theorem lastNewline?_concat (text : Text) (c : Char) :
    lastNewline? (text ++ [c]) =
      if c = '\n' then some (Text.byteSize text) else lastNewline? text := by
  induction text with
  | nil =>
      simp only [List.nil_append, lastNewline?]
      rfl
  | cons d text ih =>
      rw [List.cons_append, lastNewline?, ih, lastNewline?]
      by_cases newline : c = '\n'
      · simp [newline]
      · simp [newline]

theorem exists_lastLine (text : Text) :
    ∃ before, text = before ++ text.lastLine ∧ lineStart text = Text.byteSize before := by
  -- The last line is found from the right.
  rw [← text.reverse_reverse]
  induction text.reverse with
  | nil => exact ⟨[], rfl, rfl⟩
  | cons c reversed ih =>
      rw [List.reverse_cons]
      generalize reversed.reverse = text at *
      unfold lineStart
      rw [lastNewline?_concat]
      by_cases newline : c = '\n'
      · subst newline
        exact ⟨text ++ ['\n'], by simp [Text.lastLine], by simp; rfl⟩
      · obtain ⟨before, split, start⟩ := ih
        have line : Text.lastLine (text ++ [c]) = Text.lastLine text ++ [c] := by
          simp [Text.lastLine, newline]
        refine ⟨before, ?_, ?_⟩
        · rw [line, ← List.append_assoc, ← split]
        · rw [if_neg newline]
          exact start

/-- The indentation of an offset is that of its line. -/
theorem Tape.indentOf_eq {tape : Tape} {offset : Nat} {rest : Text}
    (here : Rest tape.source offset rest) (otherwise : Text) :
    tape.indentOf offset otherwise = .ok (Code.indentAt tape.source offset otherwise) := by
  obtain ⟨before, source, rfl⟩ := here
  obtain ⟨earlier, split, start⟩ := exists_lastLine before
  have whole : cut tape.source 0 (Text.byteSize before) = .ok before := by
    have cut := Rest.cut_word (Rest.start (before ++ rest))
    rwa [← source, Nat.zero_add] at cut
  have line : cut tape.source (Text.byteSize earlier) (Text.byteSize before) =
    .ok before.lastLine := by
    rw [source, split, Text.byteSize_append, ← split]
    nth_rewrite 1 [split]
    exact cut_append _ _ _
  rw [Tape.indentOf, whole, ok_bind, start, line, ok_bind, Code.indentAt]
  nth_rewrite 1 [source]
  rw [Text.splitAt?_append]
  simp only [Option.bind_some, Text.indentation?]
  split <;> rfl

section

variable {α : Type} {left right : List α} {test : α → Bool}

theorem dropWhile_append (holds : ∀ item ∈ left, test item = true)
    (fails : ∀ item ∈ right, test item = false) : (left ++ right).dropWhile test = right := by
  rw [List.dropWhile_append_of_pos holds]
  cases right with
  | nil => rfl
  | cons first rest => rw [List.dropWhile_cons_of_neg (by simp [fails first])]

theorem takeWhile_append (holds : ∀ item ∈ left, test item = true)
    (fails : ∀ item ∈ right, test item = false) : (left ++ right).takeWhile test = left := by
  rw [List.takeWhile_append_of_pos holds]
  cases right with
  | nil => simp
  | cons first rest => rw [List.takeWhile_cons_of_neg (by simp [fails first]), List.append_nil]

end

namespace Tape

variable {tape : Tape} {before between after : List Token} {start stop : Nat}

/-- The comments from an offset on, from a list that is cut there. -/
theorem dropWhile_comments (comments : tape.comments = (before ++ after).filter Token.isComment)
    (earlier : ∀ token ∈ before, token.start < start)
    (later : ∀ token ∈ after, start ≤ token.start) :
    tape.comments.dropWhile (fun comment => comment.start < start) =
      after.filter Token.isComment := by
  rw [comments, List.filter_append]
  apply dropWhile_append
  · intro token listed
    simpa using earlier token (List.mem_of_mem_filter listed)
  · intro token listed
    simpa using later token (List.mem_of_mem_filter listed)

/-- The comments between two offsets, from a list that is cut at them. -/
theorem commentsBetween_eq (stop : Nat)
    (comments : tape.comments = (before ++ (between ++ after)).filter Token.isComment)
    (earlier : ∀ token ∈ before, token.start < start)
    (later : ∀ token ∈ between ++ after, start ≤ token.start)
    (inside : ∀ token ∈ between, token.stop ≤ stop) (outside : ∀ token ∈ after, stop < token.stop) :
    tape.commentsBetween start stop = (between.filter Token.isComment).map .ofToken := by
  rw [Tape.commentsBetween, dropWhile_comments comments earlier later, List.filter_append]
  congr 1
  apply takeWhile_append
  · intro token listed
    simpa using inside token (List.mem_of_mem_filter listed)
  · intro token listed
    simpa using outside token (List.mem_of_mem_filter listed)

end Tape

theorem endOf_cons (offset : Nat) (comment : Token) (comments : List Token) :
    Code.endOf offset (comment :: comments) = Code.endOf comment.stop comments := by
  unfold Code.endOf
  rw [List.getLast?_cons]
  cases comments.getLast? <;> rfl

/-- Comments that stand after one another are taken up to the end of their line. -/
theorem trailingFrom_eq {source rest : Text} {limit cursor : Nat} {comments others : List Token}
    (here : Rest source cursor (Token.spell comments ++ rest))
    (placed : Token.Placed cursor comments) (blank : ∀ comment ∈ comments, comment.space.Blank)
    (low : ∀ comment ∈ comments, comment.start < limit)
    (high : ∀ comment ∈ others, limit ≤ comment.start) :
    trailingFrom source limit cursor (comments ++ others) =
      .ok ((Code.sameLine comments).map .ofToken,
        Code.endOf cursor (Code.sameLine comments)) := by
  induction comments generalizing cursor with
  | nil =>
      cases others with
      | nil => rfl
      | cons other others => exact if_pos (high other List.mem_cons_self)
  | cons comment comments ih =>
      obtain ⟨start, later⟩ := Token.placed_cons.mp placed
      rw [Token.spell_cons, List.append_assoc, List.append_assoc] at here
      have isBlank : comment.space.all Text.isSpace = true :=
        List.all_eq_true.mpr (blank comment List.mem_cons_self)
      have gap : cut source cursor comment.start = .ok comment.space := by
        rw [start]
        exact here.cut_word
      have next : Rest source comment.stop (Token.spell comments ++ rest) := by
        rw [Token.stop, start]
        exact here.after.after
      rw [List.cons_append, trailingFrom, if_neg (by have := low comment List.mem_cons_self; omega),
        gap, ok_bind, isBlank, Code.sameLine]
      cases comment.space.contains '\n' with
      | true => rfl
      | false =>
          cases comment.kind == .lineComment with
          | true => rfl
          | false =>
              rw [ih next later (fun other listed => blank other (List.mem_cons_of_mem _ listed))
                fun other listed => low other (List.mem_cons_of_mem _ listed)]
              simp [endOf_cons]

theorem filter_comments {code : List CodeToken} (bound : Code.Bound code) :
    (flat code).filter Token.isComment = code.flatMap CodeToken.comments := by
  induction code with
  | nil => rfl
  | cons first rest ih =>
      obtain ⟨here, later⟩ := Code.Bound.cons.mp bound
      rw [Code.flat_cons, List.filter_append, List.filter_eq_self.mpr here.comments,
        List.filter_cons_of_neg (by simp [here.token]), ih later, List.flatMap_cons]

/-- A tape holds the code of a source and the comments in it. -/
structure Tape.Reads (tape : Tape) (code : Code) : Prop extends tape.Holds code.tokens where
  comments : tape.comments = (flat code.tokens ++ code.tail).filter Token.isComment
  read : ∃ blank, tape.source = Token.spell (flat code.tokens ++ code.tail) ++ blank ∧
    Token.Chain (flat code.tokens ++ code.tail) blank
  located : Token.Placed 0 (flat code.tokens ++ code.tail)
  bound : Code.Bound code.tokens
  boundTail : ∀ comment ∈ code.tail, comment.isComment = true

def commentsAt (code : Code) (i : Nat) : List Token :=
  match code.tokens.drop i with
  | [] => code.tail
  | next :: _ => next.comments

def tokensFrom (code : Code) (i : Nat) : List Token :=
  match code.tokens.drop i with
  | [] => []
  | next :: rest => next.token :: (flat rest ++ code.tail)

theorem tokens_split (code : Code) (i : Nat) : flat code.tokens ++ code.tail =
    flat (code.tokens.take i) ++ (commentsAt code i ++ tokensFrom code i) := by
  nth_rewrite 1 [← List.take_append_drop i code.tokens]
  rw [Code.flat_append, commentsAt, tokensFrom]
  cases code.tokens.drop i with
  | nil => simp
  | cons next rest => simp

theorem place_cases (code : Code) (i : Nat) :
    (code.tokens[i]? = none ∧ commentsAt code i = code.tail ∧ tokensFrom code i = []) ∨
      ∃ next rest, code.tokens[i]? = some next ∧ commentsAt code i = next.comments ∧
        tokensFrom code i = next.token :: rest := by
  rw [← List.head?_drop]
  unfold commentsAt tokensFrom
  cases code.tokens.drop i with
  | nil => exact Or.inl ⟨rfl, rfl, rfl⟩
  | cons next rest => exact Or.inr ⟨next, _, rfl, rfl, rfl⟩

theorem commentsAt_of_getElem? {code : Code} {i : Nat} {first : CodeToken}
    (found : code.tokens[i]? = some first) : commentsAt code i = first.comments := by
  obtain ⟨absent, -, -⟩ | ⟨next, -, isNext, same, -⟩ := place_cases code i
  · rw [found] at absent
    cases absent
  · rw [same, Option.some.inj (found.symm.trans isNext)]

/-- The offset `cursor` is where some of the comments before a place stop, or the token before them.
-/
def Reaches (code : Code) (i cursor : Nat) : Prop :=
  ∃ taken left, commentsAt code i = taken ++ left ∧
    cursor = Text.byteSize (Token.spell (flat (code.tokens.take i) ++ taken))

namespace Tape.Reads

variable {tape : Tape} {code : Code} {i j cursor : Nat} (reads : tape.Reads code)
include reads

theorem visible : Token.Visible (flat code.tokens ++ code.tail) := by
  obtain ⟨_, _, chain⟩ := reads.read
  exact chain.visible

theorem isComment_of_commentsAt {comment : Token} (listed : comment ∈ commentsAt code i) :
    comment.isComment = true := by
  unfold commentsAt at listed
  split at listed
  · exact reads.boundTail comment listed
  · rename_i next rest split
    have member : next ∈ code.tokens := List.mem_of_mem_drop (split ▸ List.mem_cons_self)
    exact (reads.bound next member).comments comment listed

theorem cut {before after : List Token} (split : flat code.tokens ++ code.tail = before ++ after) :
    (∃ rest, Rest tape.source (Text.byteSize (Token.spell before)) (Token.spell after ++ rest)) ∧
      Token.Placed (Text.byteSize (Token.spell before)) after ∧
      (∀ token ∈ before, token.start < Text.byteSize (Token.spell before)) ∧
      ∀ token ∈ after, Text.byteSize (Token.spell before) ≤ token.start := by
  obtain ⟨blank, source, _⟩ := reads.read
  have located := reads.located
  have visible := reads.visible
  rw [split] at located visible source
  obtain ⟨placed, later⟩ := Token.placed_append.mp located
  rw [Nat.zero_add] at later
  refine ⟨⟨blank, Token.spell before, ?_, rfl⟩, later, ?_, fun token listed =>
    (later.within listed).1⟩
  · rw [source]
    simp
  · intro token listed
    have bounds := placed.bounds
      (fun other listed => visible other (List.mem_append_left _ listed)) listed
    rw [Nat.zero_add] at bounds
    exact bounds.2

theorem blank {token : Token} (listed : token ∈ flat code.tokens ++ code.tail) :
    token.space.Blank := by
  obtain ⟨_, _, chain⟩ := reads.read
  obtain ⟨before, after, split⟩ := List.append_of_mem listed
  rw [split, Token.chain_append] at chain
  exact chain.2.1

theorem start_lt_stop {token : Token} (listed : token ∈ flat code.tokens ++ code.tail) :
    token.start < token.stop :=
  Nat.lt_add_of_pos_right (Text.byteSize_pos_of_ne_nil _ (reads.visible token listed))

theorem filter_commentsAt {part : List Token}
    (inside : ∀ comment ∈ part, comment ∈ commentsAt code i) :
    part.filter Token.isComment = part :=
  List.filter_eq_self.mpr fun comment listed =>
    reads.isComment_of_commentsAt (inside comment listed)

/-- The comments before a place from an offset on. -/
theorem commentsFrom_eq {taken left : List Token} (split : commentsAt code i = taken ++ left) :
    Code.commentsFrom (Text.byteSize (Token.spell (flat (code.tokens.take i) ++ taken)))
      (commentsAt code i) = left := by
  have whole := tokens_split code i
  rw [split, List.append_assoc] at whole
  have placed := (reads.cut whole).2.1
  rw [← List.append_assoc] at placed
  have visible : ∀ token ∈ taken, token.text ≠ [] := by
    intro token listed
    apply reads.visible
    rw [whole]
    simp [listed]
  rw [split, Token.spell_append, Text.byteSize_append]
  exact Code.commentsFrom_of_placed (Token.placed_append.mp placed).1 visible

/-- The comments between an offset and the token after it. -/
theorem leading_eq {first : CodeToken} (reach : Reaches code i cursor)
    (found : code.tokens[i]? = some first) :
    tape.commentsBetween cursor first.start =
        (Code.commentsFrom cursor first.comments).map .ofToken ∧ cursor ≤ first.start := by
  obtain ⟨taken, left, split, rfl⟩ := reach
  obtain ⟨none, _, _⟩ | ⟨next, rest, isNext, comments, tokens⟩ := place_cases code i
  · rw [none] at found
    cases found
  rw [found, Option.some.injEq] at isNext
  subst isNext
  have whole := tokens_split code i
  rw [split, tokens, List.append_assoc, ← List.append_assoc (flat _) taken] at whole
  obtain ⟨_, placed, earlier, later⟩ := reads.cut whole
  obtain ⟨placedLeft, placedFirst⟩ := Token.placed_append.mp placed
  obtain ⟨start, placedRest⟩ := Token.placed_cons.mp placedFirst
  have positive : first.token.start < first.token.stop :=
    reads.start_lt_stop (by rw [whole]; simp)
  have leads := commentsBetween_eq first.start
    (show tape.comments = (_ ++ (left ++ first.token :: rest)).filter Token.isComment by
      rw [reads.comments, whole]) earlier later
    (by
      intro token listed
      have within := (placedLeft.within listed).2
      rw [CodeToken.start]
      omega)
    (by
      intro token listed
      rw [CodeToken.start]
      rcases List.mem_cons.mp listed with rfl | others
      · exact positive
      · have within := (placedRest.within others).1
        have ordered := token.start_le_stop
        omega)
  refine ⟨?_, ?_⟩
  · rw [leads, ← comments, reads.commentsFrom_eq split,
      reads.filter_commentsAt (i := i) fun comment listed => by rw [split]; simp [listed]]
  · rw [CodeToken.start]
    omega

/-- The comments between a keyword and the end of a later token are those before the tokens between
them. -/
theorem header_eq {keyword last : CodeToken} {middle : List CodeToken}
    (stretch : Stretch code.tokens i (keyword :: (middle ++ [last])) j) :
    tape.commentsBetween keyword.start last.stop =
      ((middle ++ [last]).flatMap CodeToken.comments).map .ofToken := by
  obtain ⟨before, after, split, _, _⟩ := stretch
  have whole : flat code.tokens ++ code.tail = (flat before ++ keyword.comments) ++
      (keyword.token :: flat (middle ++ [last]) ++ (flat after ++ code.tail)) := by
    rw [split]
    simp
  obtain ⟨_, placed, earlier, later⟩ := reads.cut whole
  obtain ⟨placedInside, placedAfter⟩ := Token.placed_append.mp placed
  have start := (Token.placed_cons.mp placedInside).1
  have placedMiddle := (Token.placed_cons.mp placedInside).2
  have stop : last.stop = keyword.token.stop + Text.byteSize
    (Token.spell (flat (middle ++ [last]))) := by
    apply Token.stop_of_placed placedMiddle
    simp
  have after_stop : ∀ token ∈ flat after ++ code.tail, last.stop ≤ token.start := by
    intro token listed
    have within := (placedAfter.within listed).1
    rw [Token.spell_cons, Text.byteSize_append, Text.byteSize_append] at within
    rw [stop, Token.stop, start]
    omega
  have ordered := keyword.token.start_le_stop
  have bound : Code.Bound (keyword :: (middle ++ [last])) :=
    (Code.Bound.append.mp (Code.Bound.append.mp (split ▸ reads.bound)).1).2
  have comments : (keyword.token :: flat (middle ++ [last])).filter Token.isComment =
      (middle ++ [last]).flatMap CodeToken.comments := by
    rw [List.filter_cons_of_neg (by simp [bound keyword List.mem_cons_self |>.token]),
      filter_comments (Code.Bound.cons.mp bound).2]
  rw [← comments]
  apply commentsBetween_eq _ (by rw [reads.comments, whole])
  · intro token listed
    have before := earlier token listed
    rw [CodeToken.start]
    omega
  · intro token listed
    rw [List.cons_append, List.mem_cons, List.mem_append] at listed
    rcases listed with rfl | inside | outside
    · exact le_rfl
    · have within := (placedMiddle.within inside).1
      rw [CodeToken.start]
      omega
    · have within := after_stop token outside
      rw [CodeToken.start]
      omega
  · intro token listed
    rcases List.mem_cons.mp listed with rfl | inside
    · omega
    · rw [stop]
      exact (placedMiddle.within inside).2
  · intro token listed
    have within := after_stop token listed
    have positive := reads.start_lt_stop (show token ∈ _ by rw [whole]; simp_all)
    omega

/-- The comments after a token on its line. -/
theorem trailing_eq {stop limit : Nat}
    (isStop : stop = Text.byteSize (Token.spell (flat (code.tokens.take j))))
    (isLimit : limit = (code.tokens[j]?.map CodeToken.start).getD (Text.byteSize tape.source)) :
    tape.trailing stop limit = .ok ((Code.sameLine (commentsAt code j)).map .ofToken,
      Code.endOf stop (Code.sameLine (commentsAt code j))) := by
  have whole := tokens_split code j
  obtain ⟨⟨rest, here⟩, placed, earlier, later⟩ := reads.cut whole
  obtain ⟨placedComments, placedRest⟩ := Token.placed_append.mp placed
  rw [← isStop] at *
  rw [Token.spell_append, List.append_assoc] at here
  have mem : ∀ token ∈ commentsAt code j, token ∈ flat code.tokens ++ code.tail := by
    intro token listed
    rw [whole]
    simp [listed]
  have within : ∀ token ∈ commentsAt code j,
      token.stop ≤ stop + Text.byteSize (Token.spell (commentsAt code j)) :=
    fun token listed => (placedComments.within listed).2
  rw [Tape.trailing, dropWhile_comments (by rw [reads.comments, whole]) earlier later,
    List.filter_append, reads.filter_commentsAt fun comment listed => listed]
  refine trailingFrom_eq here placedComments
    (fun token listed => reads.blank (mem token listed)) ?_ ?_
  · intro token listed
    have positive := reads.start_lt_stop (mem token listed)
    have inside := within token listed
    obtain ⟨none, _, _⟩ | ⟨next, rest, isNext, _, tokens⟩ := place_cases code j
    · have size := here.byteSize
      rw [isLimit, none]
      simp only [Option.map_none, Option.getD_none, Text.byteSize_append] at *
      omega
    · rw [tokens] at placedRest
      have start := (Token.placed_cons.mp placedRest).1
      rw [isLimit, isNext]
      simp only [Option.map_some, Option.getD_some, CodeToken.start]
      omega
  · intro token listed
    obtain ⟨_, _, none⟩ | ⟨next, rest, isNext, _, tokens⟩ := place_cases code j
    · rw [none] at listed
      cases listed
    · rw [tokens] at placedRest listed
      rw [isLimit, isNext]
      simp only [Option.map_some, Option.getD_some, CodeToken.start]
      rcases List.mem_cons.mp (List.mem_of_mem_filter listed) with rfl | others
      · exact le_rfl
      · have later := ((Token.placed_cons.mp placedRest).2.within others).1
        have ordered := next.token.start_le_stop
        omega

theorem stop_eq {front : List CodeToken} {last : CodeToken}
    (stretch : Stretch code.tokens i (front ++ [last]) j) :
    last.stop = Text.byteSize (Token.spell (flat (code.tokens.take j))) := by
  obtain ⟨before, after, split, rfl, rfl⟩ := stretch
  have stop := reads.toHolds.stop_last
    (show code.tokens = before ++ front ++ [last] ++ after by rw [split]; simp)
  rw [stop, split, ← List.length_append, List.take_left, List.append_assoc]

/-- The comments after a token on its line stop where those of the next token go on. -/
theorem reaches_endOf {stop : Nat}
    (isStop : stop = Text.byteSize (Token.spell (flat (code.tokens.take j)))) :
    Reaches code j (Code.endOf stop (Code.sameLine (commentsAt code j))) ∧
      stop ≤ Code.endOf stop (Code.sameLine (commentsAt code j)) := by
  obtain ⟨left, split⟩ := Code.sameLine_prefix (commentsAt code j)
  have placed := (reads.cut (tokens_split code j)).2.1
  rw [← split, List.append_assoc] at placed
  have ends := Code.endOf_of_placed (Token.placed_append.mp placed).1
  rw [isStop, ends]
  refine ⟨⟨_, left, split.symm, ?_⟩, Nat.le_add_right _ _⟩
  rw [Token.spell_append, Text.byteSize_append]

/-- A declaration has its place in the source, and the offset after it is where comments of the next
token stop. -/
theorem item_eq {piece : Piece} {limit : Nat} (stretch : Stretch code.tokens i piece.tokens j)
    (reach : Reaches code i cursor)
    (isLimit : limit = (code.tokens[j]?.map CodeToken.start).getD (Text.byteSize tape.source))
    (indent : Text) :
    tape.item cursor i (j - 1) limit indent =
        .ok (Code.place tape.source cursor piece (commentsAt code j) indent) ∧
      Reaches code j
        (Code.place tape.source cursor piece (commentsAt code j) indent).source.extent.stop := by
  have isFirst : code.tokens[i]? = some piece.first := stretch.head
  have concat := piece.dropLast_append_last
  have isLast : code.tokens[j - 1]? = some piece.last := (concat ▸ stretch).last
  have stop := reads.stop_eq (concat ▸ stretch)
  obtain ⟨leading, low⟩ := reads.leading_eq reach isFirst
  obtain ⟨reaches, high⟩ := reads.reaches_endOf stop
  have trailing := reads.trailing_eq stop isLimit
  have text := reads.toHolds.spanText_eq stretch piece.tokens_ne_nil
  have written : Indexed.cut tape.source piece.first.start piece.last.stop = .ok piece.text := by
    rwa [Tape.spanText, reads.toHolds.token_eq isFirst, reads.toHolds.token_eq isLast] at text
  obtain ⟨ordered, rest, here⟩ := rest_of_cut written
  refine ⟨?_, reaches⟩
  rw [Tape.item, reads.toHolds.token_eq isFirst, reads.toHolds.token_eq isLast, text]
  change (tape.trailing piece.last.stop limit >>= _) = _
  rw [trailing, ok_bind]
  change (tape.indentOf piece.first.start indent >>= _) = _
  rw [Tape.indentOf_eq here, ok_bind]
  change (range piece.first.start piece.last.stop >>= _) = _
  rw [range_of_le ordered, ok_bind, range_of_le (by omega), ok_bind]
  change Except.ok (Placed.mk _ (tape.commentsBetween cursor piece.first.start) _) = _
  rw [leading]
  rfl

end Tape.Reads

end JavaRecords.Indexed
