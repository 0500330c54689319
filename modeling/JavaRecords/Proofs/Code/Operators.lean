import JavaRecords.Proofs.Parse.Alike
import JavaRecords.Proofs.Parse.Scan
import JavaRecords.Proofs.Parse.Tiling

set_option autoImplicit false

namespace JavaRecords

namespace Token

/-- No operator reaches back over the last of some tokens, which are given from right to left. -/
def Stops (before : List Token) : Prop :=
  ∀ previous ∈ before.head?, previous.isPunct ';' = true ∨ previous.isPunct '{' = true ∨
    previous.isPunct '}' = true

theorem stops_nil : Stops [] := fun _ absent => by cases absent

theorem Stops.congr {before others : List Token} (stops : Stops before)
    (same : List.Forall₂ (fun token other : Token =>
      token.kind = other.kind ∧ token.text = other.text) before others) : Stops others := by
  cases same with
  | nil => exact stops_nil
  | @cons token other _ _ here _ =>
      intro previous isFirst
      cases isFirst
      have punct : ∀ c, other.isPunct c = token.isPunct c := fun c => by
        rw [isPunct, isPunct, here.1, here.2]
      simpa only [punct] using stops token rfl

theorem isPunct_of_stop {previous : Token} {earlier : List Token}
    (stops : Stops (previous :: earlier)) {c : Char} (other : c ∉ [';', '{', '}']) :
    previous.isPunct c = false := by
  simp only [List.mem_cons, List.not_mem_nil, or_false, not_or] at other
  rcases stops previous rfl with punct | punct | punct <;>
    simp only [isPunct, Bool.and_eq_true, beq_iff_eq] at punct <;>
    simp [isPunct, punct.2, Ne.symm, other]

theorem touchingRun_append {c : Char} (other : c ∉ [';', '{', '}']) {before : List Token}
    (stops : Stops before) (token : Token) (inner : List Token) :
    touchingRun c token (inner ++ before) = touchingRun c token inner := by
  induction inner generalizing token with
  | nil =>
      cases before with
      | nil => rfl
      | cons previous earlier => simp [touchingRun, isPunct_of_stop stops other]
  | cons previous inner ih => simp only [List.cons_append, touchingRun, ih]

theorem assignAfterPunct_append {before : List Token} (stops : Stops before) (previous : Token)
    (inner : List Token) :
    assignAfterPunct previous (inner ++ before) = assignAfterPunct previous inner := by
  unfold assignAfterPunct
  rw [touchingRun_append (by decide) stops, touchingRun_append (by decide) stops]

/-- The tokens in front of a stop and behind the next token do not matter to an assignment. -/
theorem assignOp?_append {before after : List Token} (stops : Stops before) (token : Token)
    (inner next : List Token)
    (ends : next = [] → token.isPunct '=' = true →
      ∀ other ∈ after.head?, other.isPunct '=' = false) :
    assignOp? (inner ++ before) token (next ++ after) = assignOp? inner token next := by
  unfold assignOp?
  by_cases isEquals : token.isPunct '=' = true
  · have behind :
        ((next ++ after).head?.any fun other => other.isPunct '=' && token.touches other) =
          next.head?.any fun other => other.isPunct '=' && token.touches other := by
      cases next with
      | cons other next => rfl
      | nil =>
          cases after with
          | nil => rfl
          | cons other after => simp [ends rfl isEquals other rfl]
    rw [behind]
    cases inner with
    | cons previous inner => simp only [List.cons_append, assignAfterPunct_append stops]
    | nil =>
        cases before with
        | nil => rfl
        | cons previous earlier =>
            have plain : assignAfterPunct previous earlier = some .assign := by
              rcases stops previous rfl with punct | punct | punct <;>
                simp only [isPunct, Bool.and_eq_true, beq_iff_eq] at punct <;>
                simp [assignAfterPunct, punct.2, AssignOp.ofPunct?]
            simp [plain]
  · simp [isEquals]

theorem endsArrow_append {before : List Token} (stops : Stops before) (token : Token)
    (inner : List Token) : endsArrow (inner ++ before) token = endsArrow inner token := by
  cases inner with
  | cons previous inner => rfl
  | nil =>
      cases before with
      | nil => rfl
      | cons previous earlier => simp [endsArrow, isPunct_of_stop stops]

/-- A token moved by some bytes. -/
def slide (distance : Nat) (token : Token) : Token :=
  ⟨token.kind, [], token.text, token.start + distance⟩

theorem touches_slide (distance : Nat) (token other : Token) :
    (token.slide distance).touches (other.slide distance) = token.touches other := by
  rw [Bool.eq_iff_iff]
  simp only [touches, stop, slide, beq_iff_eq]
  omega

theorem touchingRun_slide (distance : Nat) (c : Char) (token : Token) (before : List Token) :
    touchingRun c (token.slide distance) (before.map (slide distance)) =
      touchingRun c token before := by
  induction before generalizing token with
  | nil => rfl
  | cons previous earlier ih => simp only [List.map_cons, touchingRun, touches_slide, ih]; rfl

theorem assignOp?_slide (distance : Nat) (before : List Token) (token : Token)
    (after : List Token) :
    assignOp? (before.map (slide distance)) (token.slide distance) (after.map (slide distance)) =
      assignOp? before token after := by
  have punct : ∀ (token : Token) (c : Char), (token.slide distance).isPunct c = token.isPunct c :=
    fun _ _ => rfl
  have behind : ((after.map (slide distance)).head?.any fun other =>
      other.isPunct '=' && (token.slide distance).touches other) =
      after.head?.any fun other => other.isPunct '=' && token.touches other := by
    cases after with
    | nil => rfl
    | cons other after => simp [touches_slide, punct]
  unfold assignOp?
  rw [behind, punct]
  cases before with
  | nil => rfl
  | cons previous earlier =>
      have after : assignAfterPunct (previous.slide distance) (earlier.map (slide distance)) =
          assignAfterPunct previous earlier := by
        unfold assignAfterPunct
        rw [touchingRun_slide, touchingRun_slide]
        rfl
      simp only [List.map_cons, after, touches_slide]
      rfl

theorem endsArrow_slide (distance : Nat) (before : List Token) (token : Token) :
    endsArrow (before.map (slide distance)) (token.slide distance) = endsArrow before token := by
  cases before with
  | nil => rfl
  | cons previous earlier =>
      simp only [List.map_cons, endsArrow, List.head?_cons, Option.any_some, touches_slide]
      rfl

end Token

namespace Code

/-- Tokens end the operators that the tokens around them make. `before` are the tokens before them,
from right to left, and `after` those after them. -/
def Marks (before after : List Token) : List CodeToken → Prop
  | [] => True
  | code :: rest =>
      code.assign = code.token.assignOp? before (rest.map CodeToken.token ++ after) ∧
      code.arrow = code.token.endsArrow before ∧ Marks (code.token :: before) after rest

theorem marks_markOperators (before : List Token) (bound : List (List Token × Token)) :
    Marks before [] (markOperators before bound) := by
  induction bound generalizing before with
  | nil => trivial
  | cons entry rest ih =>
      refine ⟨?_, rfl, ih (entry.2 :: before)⟩
      have tokens : (markOperators (entry.2 :: before) rest).map CodeToken.token =
          rest.map Prod.snd := by
        have same := congrArg (List.map Prod.snd) (map_markOperators (entry.2 :: before) rest)
        rw [List.map_map] at same
        exact same
      rw [List.append_nil, tokens]

theorem marks_ofTokens (tokens : List Token) : Marks [] [] (Code.ofTokens tokens).tokens :=
  marks_markOperators [] _

theorem marks_append {before after : List Token} {left right : List CodeToken} :
    Marks before after (left ++ right) ↔
      Marks before (right.map CodeToken.token ++ after) left ∧
      Marks ((left.map CodeToken.token).reverse ++ before) after right := by
  induction left generalizing before with
  | nil => simp [Marks]
  | cons first rest ih =>
      simp only [List.cons_append, Marks, ih, List.map_append, List.append_assoc, List.map_cons,
        List.reverse_cons]
      tauto

/-- No operator reaches over the end of a run in front of the tokens `after`. -/
def Apart (code : List CodeToken) (after : List Token) : Prop :=
  ∀ last ∈ code.getLast?, last.isPunct '=' = true → ∀ other ∈ after.head?, other.isPunct '=' = false

/-- A run after a stop ends the operators that its own tokens make. -/
theorem Marks.alone {inner before after : List Token} {code : List CodeToken}
    (marks : Marks (inner ++ before) after code) (stops : Token.Stops before)
    (apart : Apart code after) : Marks inner [] code := by
  induction code generalizing inner with
  | nil => trivial
  | cons first rest ih =>
      obtain ⟨assign, arrow, later⟩ := marks
      refine ⟨?_, ?_, @ih (first.token :: inner) later ?_⟩
      · rw [assign, List.append_nil, Token.assignOp?_append stops]
        intro none isEquals
        have alone : rest = [] := List.map_eq_nil_iff.mp none
        exact apart first (by rw [alone]; rfl) isEquals
      · rw [arrow, Token.endsArrow_append stops]
      · intro last isLast
        refine apart last ?_
        rw [List.getLast?_cons, Option.mem_def.mp isLast]
        rfl

/-- Two tokens that stand at the same place after they are moved. -/
structure Slid (distance reverse : Nat) (code other : CodeToken) : Prop where
  kind : code.token.kind = other.token.kind
  text : code.text = other.text
  start : code.start + distance = other.start + reverse

theorem Slid.slide {distance reverse : Nat} {code other : CodeToken}
    (slid : Slid distance reverse code other) :
    code.token.slide distance = other.token.slide reverse := by
  have text : code.token.text = other.token.text := slid.text
  have start : code.token.start + distance = other.token.start + reverse := slid.start
  simp only [Token.slide, slid.kind, text, start]

theorem map_slide {distance reverse : Nat} {left right : List CodeToken}
    (slid : List.Forall₂ (Slid distance reverse) left right) :
    (left.map CodeToken.token).map (Token.slide distance) =
      (right.map CodeToken.token).map (Token.slide reverse) := by
  rw [List.map_map, List.map_map, ← List.forall₂_eq_eq_eq, List.forall₂_map_left_iff,
    List.forall₂_map_right_iff]
  exact slid.imp fun _ _ here => here.slide

/-- A token ends the operator that another one ends if the tokens around them stand alike. -/
theorem Marks.head {distance reverse : Nat} {before others : List Token} {first other : CodeToken}
    {rest more : List CodeToken} (marks : Marks before [] (first :: rest))
    (marksOther : Marks others [] (other :: more))
    (earlier : before.map (Token.slide distance) = others.map (Token.slide reverse))
    (here : Slid distance reverse first other)
    (later : List.Forall₂ (Slid distance reverse) rest more) :
    first.assign = other.assign ∧ first.arrow = other.arrow := by
  obtain ⟨assign, arrow, _⟩ := marks
  obtain ⟨assignOther, arrowOther, _⟩ := marksOther
  rw [List.append_nil] at assign assignOther
  have own := Token.assignOp?_slide distance before first.token (rest.map CodeToken.token)
  have their := Token.assignOp?_slide reverse others other.token (more.map CodeToken.token)
  have ownArrow := Token.endsArrow_slide distance before first.token
  have theirArrow := Token.endsArrow_slide reverse others other.token
  rw [earlier, here.slide, map_slide later] at own
  rw [earlier, here.slide] at ownArrow
  exact ⟨assign.trans ((own.symm.trans their).trans assignOther.symm),
    arrow.trans ((ownArrow.symm.trans theirArrow).trans arrowOther.symm)⟩

/-- Tokens that stand alike, with the same text before them, are the same after they are moved. -/
theorem Marks.moved {distance reverse : Nat} {before others : List Token}
    {left right : List CodeToken} (marks : Marks before [] left)
    (marksOther : Marks others [] right)
    (earlier : before.map (Token.slide distance) = others.map (Token.slide reverse))
    (slid : List.Forall₂ (fun code other => Slid distance reverse code other ∧
      code.lead = other.lead) left right) :
    left.map (CodeToken.move distance) = right.map (CodeToken.move reverse) := by
  induction slid generalizing before others with
  | nil => rfl
  | @cons first other rest more here later ih =>
      obtain ⟨slid, lead⟩ := here
      obtain ⟨assign, arrow⟩ :=
        marks.head marksOther earlier slid (later.imp fun _ _ here => here.1)
      refine congrArg₂ List.cons ?_ (ih marks.2.2 marksOther.2.2 ?_)
      · simp only [CodeToken.move, slid.kind, slid.text, slid.start, lead, assign, arrow]
      · rw [List.map_cons, List.map_cons, slid.slide, earlier]

/-- Tokens with the same words stand alike after tokens that do. -/
theorem slid_of_fits {offset base distance reverse : Nat} {left right : List CodeToken}
    (placed : Token.Placed offset (flat left)) (placedOther : Token.Placed base (flat right))
    (fits : List.Forall₂ Word.Fits (right.map CodeToken.word) (left.map CodeToken.word))
    (start : offset + distance = base + reverse) :
    List.Forall₂ (fun code other => Slid distance reverse code other ∧ code.lead = other.lead)
      left right := by
  induction left generalizing right offset base with
  | nil =>
      cases right with
      | nil => exact .nil
      | cons _ _ => cases fits
  | cons first rest ih =>
      cases right with
      | nil => cases fits
      | cons other more =>
          obtain ⟨here, later⟩ := List.forall₂_cons.mp fits
          have lead : other.lead = first.lead := Option.some.inj (here.lead _ rfl)
          have text : other.text = first.text := here.text
          rw [flat_cons] at placed placedOther
          obtain ⟨isStart, placedRest⟩ := Token.placed_cons.mp (Token.placed_append.mp placed).2
          obtain ⟨isStartOther, placedMore⟩ :=
            Token.placed_cons.mp (Token.placed_append.mp placedOther).2
          have before : ∀ code : CodeToken, Text.byteSize (Token.spell code.comments) +
              Text.byteSize code.token.space = Text.byteSize code.lead := fun code => by
            rw [CodeToken.lead, Text.byteSize_append]
          have ownLead := before first
          have otherLead := before other
          rw [lead] at otherLead
          have same : first.token.start + distance = other.token.start + reverse := by omega
          refine .cons ⟨⟨here.kind.symm, text.symm, same⟩, lead.symm⟩
            (ih placedRest placedMore later ?_)
          have size : other.token.text = first.token.text := text
          rw [Token.stop, Token.stop, size]
          omega

/-- Code that stands in a source, with operators of its own tokens only. -/
structure Standing (code : List CodeToken) : Prop where
  placed : ∃ offset, Token.Placed offset (flat code)
  marks : Marks [] [] code

theorem standing_ofTokens {tokens : List Token} (placed : Token.Placed 0 tokens) :
    Standing (Code.ofTokens tokens).tokens := by
  rw [← flat_ofTokens tokens] at placed
  exact ⟨⟨0, (Token.placed_append.mp placed).1⟩, marks_ofTokens tokens⟩

/-- Code up to where no operator reaches. -/
theorem Standing.left {left right : List CodeToken} (standing : Standing (left ++ right))
    (apart : Apart left (right.map CodeToken.token)) : Standing left := by
  obtain ⟨⟨offset, placed⟩, marks⟩ := standing
  rw [flat_append] at placed
  refine ⟨⟨offset, (Token.placed_append.mp placed).1⟩, ?_⟩
  have own := (marks_append.mp marks).1
  rw [List.append_nil] at own
  exact Marks.alone (show Marks ([] ++ []) _ left from own) Token.stops_nil apart

/-- Code from behind a token over which no operator reaches. -/
theorem Standing.right {left right : List CodeToken} (standing : Standing (left ++ right))
    (stops : Token.Stops (left.map CodeToken.token).reverse) : Standing right := by
  obtain ⟨⟨offset, placed⟩, marks⟩ := standing
  rw [flat_append] at placed
  refine ⟨⟨_, (Token.placed_append.mp placed).2⟩, ?_⟩
  have own := (marks_append.mp marks).2
  rw [List.append_nil] at own
  exact @Marks.alone [] _ _ _ own stops fun _ _ _ _ absent => (by cases absent)

theorem Marks.marked {before after : List Token} {code : List CodeToken}
    (marks : Marks before after code) : ∀ token ∈ code, token.Marked := by
  induction code generalizing before with
  | nil => exact fun _ listed => absurd listed List.not_mem_nil
  | cons first rest ih =>
      obtain ⟨assign, _, later⟩ := marks
      intro token listed
      rcases List.mem_cons.mp listed with rfl | others
      · exact marked_of_assign assign
      · exact ih later token others

/-- Two runs with the same words are alike. -/
theorem Standing.alike {left right : List CodeToken} (standing : Standing left)
    (standingOther : Standing right)
    (fits : List.Forall₂ Word.Fits (right.map CodeToken.word) (words left)) : Alike left right := by
  obtain ⟨⟨offset, placed⟩, marks⟩ := standing
  obtain ⟨⟨base, placedOther⟩, marksOther⟩ := standingOther
  cases left with
  | nil =>
      cases right with
      | nil => exact ⟨0, 0, rfl⟩
      | cons _ _ => cases fits
  | cons first rest =>
      cases right with
      | nil => cases fits
      | cons other more =>
          obtain ⟨here, later⟩ := List.forall₂_cons.mp fits
          rw [flat_cons] at placed placedOther
          obtain ⟨_, placedRest⟩ := Token.placed_cons.mp (Token.placed_append.mp placed).2
          obtain ⟨_, placedMore⟩ := Token.placed_cons.mp (Token.placed_append.mp placedOther).2
          have text : other.token.text = first.token.text := here.text
          have rests : List.Forall₂ (fun code next => Slid other.start first.start code next ∧
              code.lead = next.lead) rest more := by
            refine slid_of_fits placedRest placedMore later ?_
            rw [Token.stop, Token.stop, text, CodeToken.start, CodeToken.start]
            omega
          have firsts : Slid other.start first.start first other :=
            ⟨here.kind.symm, here.text.symm, Nat.add_comm _ _⟩
          have none : ([] : List Token).map (Token.slide other.start) =
              [].map (Token.slide first.start) := rfl
          obtain ⟨assign, arrow⟩ :=
            marks.head marksOther none firsts (rests.imp fun _ _ here => here.1)
          refine ⟨other.start, first.start, congrArg₂ List.cons ?_
            (marks.2.2.moved marksOther.2.2 (congrArg₂ List.cons firsts.slide none) rests)⟩
          have moved : ∀ (code : CodeToken) (distance : Nat), code.bared.move distance =
              ⟨⟨code.token.kind, [], code.text, code.start + distance⟩, [], code.assign,
                code.arrow⟩ :=
            fun _ _ => rfl
          rw [moved, moved, firsts.kind, firsts.text, firsts.start, assign, arrow]

end Code

end JavaRecords
