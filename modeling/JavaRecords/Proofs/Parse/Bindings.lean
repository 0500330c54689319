import JavaRecords.Proofs.Parse.Owned
import JavaRecords.Proofs.Parse.Ranges
import JavaRecords.Proofs.Token.Lossless

set_option autoImplicit false

namespace JavaRecords

inductive TriviaList where
  | leading
  | trailing
  | dangling
  deriving DecidableEq, Repr

def Trivia.list (trivia : Trivia) : TriviaList → List Comment
  | .leading => trivia.leading
  | .trailing => trivia.trailing
  | .dangling => trivia.dangling

/-- A place for a comment: a list of a declaration and an index in it. -/
structure CommentPlace where
  id : NodeId
  list : TriviaList
  index : Nat
  deriving DecidableEq, Repr

/-- A comment stands in the text that a node keeps: anywhere in the node, or in front of the keyword
if the node is a class with a body. -/
def Node.Encloses (tokens : List Token) (comment : Token) : Node → Prop
  | .classDecl decl => ∃ keyword ∈ tokens, keyword.isWord "class".toList = true ∧
      keyword.start = decl.source.range.start + Text.byteSize decl.headerPrefix ∧
      decl.source.range.start ≤ comment.start ∧ comment.stop ≤ keyword.start
  | node => ∃ excerpt, node.source? = some excerpt ∧
      excerpt.range.containsSpan comment.span = true

/-- What a parse does with a comment. -/
inductive CommentFate where
  /-- It is bound to a declaration. -/
  | bound
  /-- It stays in the text of a declaration. -/
  | kept
  /-- It stands behind the last declaration. -/
  | behind
  deriving DecidableEq, Repr

namespace SyntaxTree

def commentsIn (tree : SyntaxTree) (id : NodeId) (list : TriviaList) : List Comment :=
  ((tree.trivia.get? id).map fun trivia => trivia.list list).getD []

def comment? (tree : SyntaxTree) (place : CommentPlace) : Option Comment :=
  (tree.commentsIn place.id place.list)[place.index]?

/-- A tree has a comment of its source at a place. -/
def HasAt (tree : SyntaxTree) (comment : Token) (place : CommentPlace) : Prop :=
  ∃ found, tree.comment? place = some found ∧ found.span = comment.span

def Meets (tree : SyntaxTree) (tokens : List Token) (comment : Token) : CommentFate → Prop
  | .bound => ∃! place, tree.HasAt comment place
  | .kept => (∀ place, ¬ tree.HasAt comment place) ∧
      ∃ id node, tree.node? id = some node ∧ node.Encloses tokens comment
  | .behind => (∀ place, ¬ tree.HasAt comment place) ∧
      ∀ last, tree.topLevel.getLast? = some last → (tree.extentOf last).stop ≤ comment.start

/-- Every comment of the source has one fate, and the lists of comments of a tree have comments of
the source, in order. -/
structure BindsComments (tree : SyntaxTree) (tokens : List Token) : Prop where
  settled : ∀ comment ∈ tokens, comment.isComment = true →
    ∃! fate, tree.Meets tokens comment fate
  nodes : ∀ place comment, tree.comment? place = some comment → (tree.node? place.id).isSome
  texts : ∀ place comment, tree.comment? place = some comment →
    (∃ token ∈ tokens, token.isComment = true ∧ comment = Comment.ofToken token) ∧
      Text.slice? tree.source comment.span.start comment.span.stop = some comment.text
  inOrder : ∀ id list, (tree.commentsIn id list).Pairwise fun first second =>
    first.span.stop ≤ second.span.start

end SyntaxTree

namespace Outline

variable {source : Text} {tokens : List Token} {tree : SyntaxTree} {outline : Outline}
  {low high id : Nat}

theorem filter_owner_self (id : Nat) (tokens : List Token) :
    (tokens.map (Prod.mk id)).filter (fun entry => entry.1 == id) = tokens.map (Prod.mk id) := by
  apply List.filter_eq_self.mpr
  intro entry listed
  obtain ⟨token, _, rfl⟩ := List.mem_map.mp listed
  exact beq_self_eq_true id

theorem filter_owner_of_ne {other : Nat} (different : other ≠ id) (tokens : List Token) :
    (tokens.map (Prod.mk other)).filter (fun entry => entry.1 == id) = [] := by
  apply List.filter_eq_nil_iff.mpr
  intro entry listed
  obtain ⟨token, _, rfl⟩ := List.mem_map.mp listed
  simpa using different

/-- Comments belong to the declarations and their members. -/
theorem Numbered.mem_owned (numbered : outline.Numbered low high) {token : Token}
    (listed : (id, token) ∈ outline.owned) : low ≤ id ∧ id < high := by
  induction outline generalizing low high with
  | nil => cases listed
  | leaf site node rest ih =>
      obtain ⟨rfl, numberedRest⟩ := numbered
      have bound := numberedRest.le
      rcases List.mem_append.mp listed with own | later
      · obtain ⟨_, _, same⟩ := List.mem_map.mp own
        cases same
        omega
      · have inRest := ih numberedRest later
        omega
  | type site shape members rest ihMembers ihRest =>
      obtain ⟨numberedMembers, numberedRest⟩ := numbered
      have lower := numberedMembers.le
      have upper := numberedRest.le
      rcases List.mem_append.mp listed with own | inside
      · obtain ⟨_, _, same⟩ := List.mem_map.mp own
        cases same
        omega
      · rcases List.mem_append.mp inside with member | later
        · have inMembers := ihMembers numberedMembers member
          omega
        · have inRest := ihRest numberedRest later
          omega

theorem Numbered.filter_owned_eq_nil (numbered : outline.Numbered low high)
    (outside : id < low ∨ high ≤ id) :
    outline.owned.filter (fun entry => entry.1 == id) = [] := by
  apply List.filter_eq_nil_iff.mpr
  rintro ⟨other, token⟩ listed same
  have inside := numbered.mem_owned listed
  rw [show other = id by simpa using same] at inside
  omega

/-- The tokens that a tree has as the comments of a declaration, list by list. They are those of the
declaration among the comments of the outline, and each list is a part of its tokens. -/
structure Owns (tree : SyntaxTree) (outline : Outline) (id : NodeId)
    (own : TriviaList → List Token) : Prop where
  bears : Bears tree id
    ⟨(own .leading).map Comment.ofToken, (own .trailing).map Comment.ofToken,
      (own .dangling).map Comment.ofToken⟩
  owned : outline.owned.filter (fun entry => entry.1 == id) =
    (own .leading ++ own .trailing ++ own .dangling).map (Prod.mk id)
  inOrder : ∀ list, (own list).Sublist outline.tokens

/-- The comments of a declaration with other declarations around it. -/
theorem Owns.within {own : TriviaList → List Token} {whole : Outline}
    (owns : Owns tree outline id own)
    (same : whole.owned.filter (fun entry => entry.1 == id) =
      outline.owned.filter (fun entry => entry.1 == id))
    (inside : outline.tokens.Sublist whole.tokens) : Owns tree whole id own where
  bears := owns.bears
  owned := same.trans owns.owned
  inOrder list := (owns.inOrder list).trans inside

section

variable {site : Site} {node : Node} {shape : ClassShape} {members rest : Outline}

def leafOwn (site : Site) : TriviaList → List Token
  | .leading => site.lead
  | .trailing => site.trail
  | .dangling => []

def classOwn (site : Site) (shape : ClassShape) (members : Outline) : TriviaList → List Token
  | .leading => site.lead ++ (shape.comments ++ Code.openingComments shape)
  | .trailing => site.trail
  | .dangling => members.dangling shape

theorem owns_leaf (bears : Bears tree site.id
      ⟨(site.placed source).leading, (site.placed source).trailing, []⟩)
    (numbered : rest.Numbered (site.id + 1) high) :
    Owns tree (leaf site node rest) site.id (leafOwn site) where
  bears := bears
  owned := by
    rw [owned, List.filter_append, filter_owner_self,
      numbered.filter_owned_eq_nil (Or.inl (Nat.lt_succ_self _))]
    simp [leafOwn]
  inOrder := by
    have own : site.tokens.Sublist (leaf site node rest).tokens := List.sublist_append_left _ _
    intro list
    refine List.Sublist.trans ?_ own
    cases list with
    | leading => exact List.sublist_append_left _ _
    | trailing => exact (List.sublist_append_right _ _).trans (List.sublist_append_right _ _)
    | dangling => exact List.nil_sublist _

theorem owns_type {offset : Nat} (layout : ClassLayout site.piece shape)
    (body : BodyTiles offset site shape members) (bears : Bears tree site.id
      (shape.trivia (site.placed source) (members.stopFrom (Code.bodyStart shape))))
    (numberedMembers : members.Numbered low site.id)
    (numberedRest : rest.Numbered (site.id + 1) high) :
    Owns tree (type site shape members rest) site.id (classOwn site shape members) where
  bears := by
    rw [classOwn, List.map_append]
    exact bears
  owned := by
    rw [owned, List.filter_append, List.filter_append, filter_owner_self,
      numberedMembers.filter_owned_eq_nil (Or.inr (Nat.le_refl _)),
      numberedRest.filter_owned_eq_nil (Or.inl (Nat.lt_succ_self _))]
    rw [List.append_nil, List.append_nil]
    rfl
  inOrder := by
    have own : site.tokens.Sublist (type site shape members rest).tokens :=
      List.sublist_append_left _ _
    intro list
    refine List.Sublist.trans ?_ own
    rw [body.split]
    cases list with
    | leading =>
        have header := layout.comments_sublist
        rw [List.append_assoc, List.append_assoc, List.append_assoc]
        refine (List.Sublist.refl _).append ?_
        rw [← List.append_assoc, ← List.append_assoc]
        refine List.Sublist.trans ?_ (List.sublist_append_left _ _)
        exact (header.append (List.Sublist.refl _)).trans (List.sublist_append_left _ _)
    | trailing =>
        refine List.Sublist.trans ?_ (List.sublist_append_right _ _)
        exact (List.sublist_cons_self _ _).trans (List.sublist_append_right _ _)
    | dangling => exact (List.sublist_append_left _ _).trans (List.sublist_append_right _ _)

end

/-- Each declaration has its own comments. -/
theorem Stands.exists_owns {offset : Nat} (stands : outline.Stands source tree)
    (numbered : outline.Numbered low high) (tiles : outline.Tiles offset)
    (declared : outline.Declared) (inside : low ≤ id ∧ id < high) :
    ∃ own, Owns tree outline id own := by
  induction outline generalizing low high offset with
  | nil =>
      have same : low = high := numbered
      omega
  | leaf site node rest ih =>
      obtain ⟨rfl, numberedRest⟩ := numbered
      by_cases same : site.id = id
      · subst same
        exact ⟨_, owns_leaf stands.2.1 numberedRest⟩
      · obtain ⟨own, owns⟩ := ih stands.2.2 numberedRest tiles.2 declared
          ⟨Nat.lt_of_le_of_ne inside.1 same, inside.2⟩
        refine ⟨own, owns.within ?_ (List.sublist_append_right _ _)⟩
        rw [owned, List.filter_append, filter_owner_of_ne same, List.nil_append]
  | type site shape members rest ihMembers ihRest =>
      obtain ⟨siteTiles, body, tilesMembers, tilesRest⟩ := tiles
      obtain ⟨declares, declaredMembers, declaredRest⟩ := declared
      obtain ⟨numberedMembers, numberedRest⟩ := numbered
      rcases Nat.lt_trichotomy id site.id with before | same | behind
      · obtain ⟨own, owns⟩ := ihMembers stands.2.2.1 numberedMembers tilesMembers declaredMembers
          ⟨inside.1, before⟩
        refine ⟨own, owns.within ?_ (List.Sublist.trans ?_ (List.sublist_append_left _ _))⟩
        · rw [owned, List.filter_append, List.filter_append,
            filter_owner_of_ne (Nat.ne_of_gt before),
            numberedRest.filter_owned_eq_nil (Or.inl (Nat.lt_succ_of_lt before)), List.nil_append,
            List.append_nil]
        · rw [body.split]
          exact (List.sublist_append_right _ _).trans (List.sublist_append_left _ _)
      · subst same
        obtain ⟨layout⟩ := ClassLayout.exists_of_declares declares
        exact ⟨_, owns_type layout body stands.2.1 numberedMembers numberedRest⟩
      · obtain ⟨own, owns⟩ := ihRest stands.2.2.2 numberedRest tilesRest declaredRest
          ⟨behind, inside.2⟩
        refine ⟨own, owns.within ?_ (List.sublist_append_right _ _)⟩
        rw [owned, List.filter_append, List.filter_append, filter_owner_of_ne (Nat.ne_of_lt behind),
          numberedMembers.filter_owned_eq_nil (Or.inr (Nat.le_of_lt behind)), List.nil_append,
          List.nil_append]

variable {own : TriviaList → List Token}

/-- The lists of a declaration are its tokens. -/
theorem Owns.commentsIn_eq (owns : Owns tree outline id own) (list : TriviaList) :
    tree.commentsIn id list = (own list).map Comment.ofToken := by
  have bears := owns.bears
  unfold Bears at bears
  rw [SyntaxTree.commentsIn, bears]
  split
  · rename_i empty
    simp only [Trivia.isEmpty, Bool.and_eq_true, List.isEmpty_iff] at empty
    obtain ⟨⟨leading, trailing⟩, dangling⟩ := empty
    cases list with
    | leading => exact leading.symm
    | trailing => exact trailing.symm
    | dangling => exact dangling.symm
  · cases list <;> rfl

theorem mem_lists_iff (own : TriviaList → List Token) (token : Token) :
    token ∈ own .leading ++ own .trailing ++ own .dangling ↔ ∃ list, token ∈ own list := by
  simp only [List.mem_append]
  constructor
  · rintro ((leading | trailing) | dangling)
    · exact ⟨.leading, leading⟩
    · exact ⟨.trailing, trailing⟩
    · exact ⟨.dangling, dangling⟩
  · rintro ⟨_ | _ | _, listed⟩
    · exact Or.inl (Or.inl listed)
    · exact Or.inl (Or.inr listed)
    · exact Or.inr listed

theorem Owns.mem_owned_iff (owns : Owns tree outline id own) (token : Token) :
    (id, token) ∈ outline.owned ↔ ∃ list, token ∈ own list := by
  have filtered := owns.owned
  rw [← mem_lists_iff]
  constructor
  · intro listed
    have kept : (id, token) ∈ outline.owned.filter (fun entry => entry.1 == id) :=
      List.mem_filter.mpr ⟨listed, beq_self_eq_true id⟩
    rw [filtered] at kept
    obtain ⟨other, among, same⟩ := List.mem_map.mp kept
    rw [← (Prod.mk.inj same).2]
    exact among
  · intro listed
    have made : (id, token) ∈ (own .leading ++ own .trailing ++ own .dangling).map (Prod.mk id) :=
      List.mem_map_of_mem listed
    rw [← filtered] at made
    exact (List.mem_filter.mp made).1

/-- A token is at one place of the lists of a declaration. -/
theorem index_unique (nodup : (own .leading ++ own .trailing ++ own .dangling).Nodup)
    {list other : TriviaList} {index otherIndex : Nat} {token : Token}
    (found : (own list)[index]? = some token) (foundOther : (own other)[otherIndex]? = some token) :
    list = other ∧ index = otherIndex := by
  obtain ⟨nodupFront, nodupDangling, apartDangling⟩ := List.nodup_append.mp nodup
  obtain ⟨nodupLeading, nodupTrailing, apart⟩ := List.nodup_append.mp nodupFront
  have isMember := List.mem_of_getElem? found
  have isOther := List.mem_of_getElem? foundOther
  have single : ∀ list, (own list).Nodup := by
    intro list
    cases list with
    | leading => exact nodupLeading
    | trailing => exact nodupTrailing
    | dangling => exact nodupDangling
  have same : list = other := by
    cases list <;> cases other <;> first
      | rfl
      | exact absurd rfl (apart _ isMember _ isOther)
      | exact absurd rfl (apart _ isOther _ isMember)
      | exact absurd rfl (apartDangling _ (List.mem_append_left _ isMember) _ isOther)
      | exact absurd rfl (apartDangling _ (List.mem_append_left _ isOther) _ isMember)
      | exact absurd rfl (apartDangling _ (List.mem_append_right _ isMember) _ isOther)
      | exact absurd rfl (apartDangling _ (List.mem_append_right _ isOther) _ isMember)
  subst same
  obtain ⟨short, _⟩ := List.getElem?_eq_some_iff.mp found
  exact ⟨rfl, (List.getElem?_inj short (single list)).mp (found.trans foundOther.symm)⟩

end Outline

namespace Code

theorem Bound.mem_comments {code : List CodeToken} (bound : Bound code) {comment : Token}
    (listed : comment ∈ flat code) (isComment : comment.isComment = true) :
    comment ∈ code.flatMap CodeToken.comments := by
  obtain ⟨token, among, own⟩ := List.mem_flatMap.mp listed
  rcases List.mem_append.mp own with before | here
  · exact List.mem_flatMap.mpr ⟨token, among, before⟩
  · rw [List.mem_singleton.mp here, (bound token among).token] at isComment
    cases isComment

/-- What stands before a token of a run, without the comments before the first. -/
theorem exists_bare_eq (taken : List CodeToken) (keyword : CodeToken) (more : List CodeToken) :
    ∃ before, bare (taken ++ keyword :: more) = before ++ keyword.token :: flat more := by
  cases taken with
  | nil => exact ⟨[], rfl⟩
  | cons first others =>
      refine ⟨first.token :: (flat others ++ keyword.comments), ?_⟩
      simp [bare]

end Code

namespace Outline

variable {source : Text} {tokens : List Token} {tree : SyntaxTree} {outline : Outline}
  {offset : Nat} {comment : Token}

/-- A comment up to the opening brace of a class belongs to the class, or stands in front of its
keyword. -/
theorem ClassAmong.header_cases {site : Site} {shape : ClassShape} {members : Outline}
    (isClass : ClassAmong source tokens tree site shape members) (tiles : site.Tiles offset)
    (body : BodyTiles offset site shape members) (placed : Token.Placed offset site.tokens)
    (inside : ∀ token ∈ site.tokens, token ∈ tokens)
    (listed : comment ∈ Code.bare (site.front shape)) (isComment : comment.isComment = true) :
    comment ∈ shape.comments ∨
      ∃ id node, tree.node? id = some node ∧ node.Encloses tokens comment := by
  obtain ⟨layout⟩ := ClassLayout.exists_of_declares isClass.declares
  obtain ⟨trivia, ready⟩ := isClass.ready
  obtain ⟨package, present⟩ := isClass.present
  have bound := (body.bound ready.bound).1
  obtain ⟨before, split⟩ := Code.exists_bare_eq layout.taken layout.keyword
    (layout.name :: (layout.params ++ (shape.clauses ++ [shape.opening])))
  rw [← layout.front_eq] at split
  have within : ∀ token ∈ Code.bare (site.front shape), token ∈ Code.bare site.piece.tokens := by
    intro token among
    rw [body.bare_eq]
    exact List.mem_append_left _ (List.mem_append_left _ among)
  have inTokens : ∀ token ∈ Code.bare (site.front shape), token ∈ tokens := fun token among =>
    inside token (List.mem_append_right _ (List.mem_append_left _ (within token among)))
  rw [layout.front_eq, Code.Bound.append] at bound
  obtain ⟨boundKeyword, boundMore⟩ := Code.Bound.cons.mp bound.2
  have contained := tiles.contains placed (within comment listed)
  rw [Span.containsSpan, Bool.and_eq_true, decide_eq_true_eq, decide_eq_true_eq] at contained
  rw [split] at listed inTokens
  rcases List.mem_append.mp listed with early | late
  · -- in front of the keyword
    right
    refine ⟨site.id, _, SyntaxTree.node?_of_class? present, layout.keyword.token,
      inTokens _ (by simp), layout.isClass, ?_, contained.1, ?_⟩
    · have placedBare := (Token.placed_append.mp (Token.placed_append.mp placed).2).1
      exact layout.keyword_start placedBare
    · have placedBare := (Token.placed_append.mp (Token.placed_append.mp placed).2).1
      rw [body.bare_eq, split, List.append_assoc, List.append_assoc] at placedBare
      obtain ⟨placedEarly, placedKeyword⟩ := Token.placed_append.mp placedBare
      obtain ⟨keywordStart, _⟩ := Token.placed_cons.mp placedKeyword
      have bounds := (placedEarly.within early).2
      omega
  · left
    rcases List.mem_cons.mp late with rfl | behind
    · rw [boundKeyword.token] at isComment
      cases isComment
    · rw [layout.comments]
      exact boundMore.mem_comments behind isComment

/-- What belongs to a declaration as a comment is one. -/
theorem Among.isComment_of_owned (among : outline.Among source tokens tree)
    (tiles : outline.Tiles offset) {id : NodeId} (owned : (id, comment) ∈ outline.owned) :
    comment.isComment = true := by
  induction outline generalizing offset with
  | nil => cases owned
  | leaf site node rest ih =>
      rcases List.mem_append.mp owned with own | later
      · obtain ⟨trivia, ready⟩ := among.ready.1
        obtain ⟨token, listed, same⟩ := List.mem_map.mp own
        cases same
        exact (List.mem_append.mp listed).elim (ready.lead _) (ready.trail _)
      · exact ih among.after_leaf tiles.2 later
  | type site shape members rest ihMembers ihRest =>
      have isClass := among.class
      obtain ⟨_, body, tilesMembers, tilesRest⟩ := tiles
      rcases List.mem_append.mp owned with own | inside
      · obtain ⟨trivia, ready⟩ := isClass.ready
        obtain ⟨front, openings, danglings⟩ := body.bound ready.bound
        obtain ⟨layout⟩ := ClassLayout.exists_of_declares isClass.declares
        obtain ⟨token, listed, same⟩ := List.mem_map.mp own
        cases same
        simp only [classComments, List.mem_append] at listed
        rcases listed with ((lead | header | opening) | trail) | dangling
        · exact ready.lead _ lead
        · rw [layout.comments] at header
          obtain ⟨code, among, before⟩ := List.mem_flatMap.mp header
          rw [layout.front_eq] at front
          exact (front code (by simp_all)).comments _ before
        · exact openings _ opening
        · exact ready.trail _ trail
        · exact danglings _ dangling
      · rcases List.mem_append.mp inside with member | later
        · exact ihMembers isClass.among tilesMembers member
        · exact ihRest among.after_type tilesRest later

/-- A comment among declarations is bound to one of them or stays in the text of one. -/
theorem Among.owned_or_kept (among : outline.Among source tokens tree)
    (tiles : outline.Tiles offset) (placed : Token.Placed offset outline.tokens)
    (inside : ∀ token ∈ outline.tokens, token ∈ tokens)
    (listed : comment ∈ outline.tokens) (isComment : comment.isComment = true) :
    (∃ id, (id, comment) ∈ outline.owned) ∨
      ∃ id node, tree.node? id = some node ∧ node.Encloses tokens comment := by
  induction outline generalizing offset with
  | nil => cases listed
  | leaf site node rest ih =>
      obtain ⟨placedSite, placedRest⟩ := Token.placed_append.mp placed
      rcases List.mem_append.mp listed with own | later
      · rcases List.mem_append.mp own with lead | others
        · exact Or.inl ⟨site.id, List.mem_append_left _
            (List.mem_map_of_mem (List.mem_append_left _ lead))⟩
        · rcases List.mem_append.mp others with bare | trail
          · right
            have contains := tiles.1.contains placedSite bare
            have plain := among.plain
            refine ⟨site.id, node, among.stands.1, ?_⟩
            cases node with
            | classDecl decl => exact plain.elim
            | record decl => exact plain.elim
            | _ => exact ⟨_, plain, contains⟩
          · exact Or.inl ⟨site.id, List.mem_append_left _
              (List.mem_map_of_mem (List.mem_append_right _ trail))⟩
      · rw [← tiles.1.stop] at placedRest
        have known := ih among.after_leaf tiles.2 placedRest
          (fun token behind => inside token (List.mem_append_right _ behind)) later
        exact known.imp_left fun ⟨id, owned⟩ => ⟨id, List.mem_append_right _ owned⟩
  | type site shape members rest ihMembers ihRest =>
      obtain ⟨siteTiles, body, tilesMembers, tilesRest⟩ := tiles
      obtain ⟨placedSite, placedRest⟩ := Token.placed_append.mp placed
      have isClass := among.class
      have insideSite : ∀ token ∈ site.tokens, token ∈ tokens := fun token own =>
        inside token (List.mem_append_left _ own)
      have bind : comment ∈ classComments site shape members →
          ∃ id, (id, comment) ∈ (type site shape members rest).owned := fun own =>
        ⟨site.id, List.mem_append_left _ (List.mem_map_of_mem own)⟩
      rcases List.mem_append.mp listed with own | later
      · have placedMembers := body.placed placedSite
        rw [body.split] at own
        simp only [List.mem_append, List.mem_cons] at own
        rcases own with (((lead | header) | opening) | member) | (dangling | closing | trail)
        · exact Or.inl (bind (by simp [classComments, lead]))
        · rcases isClass.header_cases siteTiles body placedSite insideSite header isComment with
            own | kept
          · exact Or.inl (bind (by simp [classComments, own]))
          · exact Or.inr kept
        · exact Or.inl (bind (by simp [classComments, opening]))
        · have known := ihMembers isClass.among tilesMembers placedMembers
            (fun token inMembers => insideSite token (by rw [body.split]; simp [inMembers])) member
          exact known.imp_left fun ⟨id, owned⟩ =>
            ⟨id, List.mem_append_right _ (List.mem_append_left _ owned)⟩
        · exact Or.inl (bind (by simp [classComments, dangling]))
        · obtain ⟨trivia, ready⟩ := isClass.ready
          have isLast : shape.closing ∈ site.piece.tokens := by rw [body.tokens]; simp
          rw [closing, (ready.bound _ isLast).token] at isComment
          cases isComment
        · exact Or.inl (bind (by simp [classComments, trail]))
      · rw [← siteTiles.stop] at placedRest
        have known := ihRest among.after_type tilesRest placedRest
          (fun token behind => inside token (List.mem_append_right _ behind)) later
        exact known.imp_left fun ⟨id, owned⟩ =>
          ⟨id, List.mem_append_right _ (List.mem_append_right _ owned)⟩

end Outline

/-- The declarations end where their tokens do. -/
theorem Outline.Tiles.stopFrom_eq {outline : Outline} {offset : Nat}
    (tiles : outline.Tiles offset) :
    outline.stopFrom offset = offset + Text.byteSize (Token.spell outline.tokens) := by
  induction outline generalizing offset with
  | nil => rfl
  | leaf site node rest ih =>
      rw [stopFrom, ih tiles.2, tiles.1.stop, tokens, Token.spell_append, Text.byteSize_append,
        Nat.add_assoc]
  | type site shape members rest _ ih =>
      rw [stopFrom, ih tiles.2.2.2, tiles.1.stop, tokens, Token.spell_append, Text.byteSize_append,
        Nat.add_assoc]

theorem Token.Placed.inOrder {offset : Nat} {tokens : List Token} (placed : Placed offset tokens) :
    tokens.Pairwise fun first second => first.stop ≤ second.start := by
  induction tokens generalizing offset with
  | nil => exact List.Pairwise.nil
  | cons token rest ih =>
      obtain ⟨_, placedRest⟩ := placed_cons.mp placed
      exact List.Pairwise.cons (fun other listed => (placedRest.within listed).1) (ih placedRest)

theorem Token.Placed.slice? {tokens : List Token} (placed : Placed 0 tokens) (blank : Text)
    {token : Token} (listed : token ∈ tokens) :
    Text.slice? (spell tokens ++ blank) token.start token.stop = some token.text := by
  obtain ⟨before, after, rfl⟩ := List.append_of_mem listed
  exact (slices_of_placed placed).2

theorem Span.Tiles.last {start stop : Nat} {spans : List Span} (tiles : Tiles start stop spans)
    {last : Span} (isLast : spans.getLast? = some last) : last.stop = stop := by
  induction spans generalizing start with
  | nil => cases isLast
  | cons first rest ih =>
      obtain ⟨_, _, others⟩ := tiles
      cases rest with
      | nil =>
          cases isLast
          exact others
      | cons next rest =>
          rw [List.getLast?_cons_cons] at isLast
          exact ih others isLast

namespace ParsedUnit

variable {source : Text} {tree : SyntaxTree} (unit : ParsedUnit source tree) {comment : Token}

include unit

/-- The comments of a node, list by list. -/
theorem exists_owns {id : Nat} (known : id < tree.nodes.size) :
    ∃ own, Outline.Owns tree unit.outline id own :=
  unit.adds.stands.exists_owns unit.numbered unit.tiles unit.adds.shaped.declared
    ⟨Nat.zero_le _, known⟩

theorem exists_of_comment? {place : CommentPlace} {found : Comment}
    (present : tree.comment? place = some found) :
    place.id < tree.nodes.size ∧ ∀ own, Outline.Owns tree unit.outline place.id own →
      ∃ token, (own place.list)[place.index]? = some token ∧ Comment.ofToken token = found := by
  constructor
  · by_contra outside
    have none := unit.tidy.get?_eq_none (Nat.le_of_not_lt outside)
    rw [SyntaxTree.comment?, SyntaxTree.commentsIn, none] at present
    cases present
  · intro own owns
    rw [SyntaxTree.comment?, owns.commentsIn_eq, List.getElem?_map] at present
    exact Option.map_eq_some_iff.mp present

theorem mem_tokens_of_owned {id : NodeId} {token : Token}
    (owned : (id, token) ∈ unit.outline.owned) : token ∈ unit.outline.tokens :=
  (Outline.owned_subperm unit.tiles unit.adds.shaped.declared).subset
    (List.mem_map_of_mem (f := Prod.snd) owned)

/-- The bound comments stand at different bytes. -/
theorem nodup_owned : (unit.outline.owned.map fun entry => entry.2.span).Nodup := by
  have placed := unit.placed
  have visible := unit.chain.visible
  rw [unit.joined] at placed visible
  have whole := (Token.placed_append.mp placed).1.nodup_span (Token.Visible.append.mp visible).1
  obtain ⟨taken, order, among⟩ := Outline.owned_subperm unit.tiles unit.adds.shaped.declared
  have distinct := (order.map Token.span).nodup_iff.mp (whole.sublist (among.map _))
  rwa [List.map_map] at distinct

theorem existsUnique_place {id : NodeId} (owned : (id, comment) ∈ unit.outline.owned) :
    ∃! place, tree.HasAt comment place := by
  have known := (unit.numbered.mem_owned owned).2
  obtain ⟨own, owns⟩ := unit.exists_owns known
  obtain ⟨list, listed⟩ := (owns.mem_owned_iff comment).mp owned
  obtain ⟨index, found⟩ := List.mem_iff_getElem?.mp listed
  refine ⟨⟨id, list, index⟩, ⟨Comment.ofToken comment, ?_, rfl⟩, ?_⟩
  · change (tree.commentsIn id list)[index]? = _
    rw [owns.commentsIn_eq, List.getElem?_map, found]
    rfl
  · rintro ⟨other, otherList, otherIndex⟩ ⟨twin, present, span⟩
    obtain ⟨knownOther, tokenOf⟩ := unit.exists_of_comment? present
    obtain ⟨ownOther, ownsOther⟩ := unit.exists_owns knownOther
    obtain ⟨token, isToken, rfl⟩ := tokenOf ownOther ownsOther
    have ownedOther : (other, token) ∈ unit.outline.owned :=
      (ownsOther.mem_owned_iff token).mpr ⟨otherList, List.mem_of_getElem? isToken⟩
    have same : (other, token) = (id, comment) :=
      List.inj_on_of_nodup_map unit.nodup_owned ownedOther owned span
    obtain ⟨rfl, rfl⟩ := Prod.mk.inj same
    obtain ⟨token, isTwin, twin⟩ := tokenOf own owns
    have again : (other, token) ∈ unit.outline.owned :=
      (owns.mem_owned_iff token).mpr ⟨otherList, List.mem_of_getElem? isTwin⟩
    have one : (other, token) = (other, _) :=
      List.inj_on_of_nodup_map unit.nodup_owned again owned (congrArg Comment.span twin)
    rw [(Prod.mk.inj one).2] at isTwin
    have nodup : (own .leading ++ own .trailing ++ own .dangling).Nodup := by
      have all := (List.Nodup.of_map _ unit.nodup_owned).filter (fun entry => entry.1 == other)
      rw [owns.owned] at all
      exact all.of_map _
    obtain ⟨rfl, rfl⟩ := Outline.index_unique nodup isTwin found
    rfl

/-- A comment that no declaration owns is at no place. -/
theorem not_hasAt (listed : comment ∈ unit.tokens)
    (unowned : ¬ ∃ id, (id, comment) ∈ unit.outline.owned) (place : CommentPlace) :
    ¬ tree.HasAt comment place := by
  rintro ⟨found, present, span⟩
  obtain ⟨known, tokenOf⟩ := unit.exists_of_comment? present
  obtain ⟨own, owns⟩ := unit.exists_owns known
  obtain ⟨token, isToken, rfl⟩ := tokenOf own owns
  have owned : (place.id, token) ∈ unit.outline.owned :=
    (owns.mem_owned_iff token).mpr ⟨place.list, List.mem_of_getElem? isToken⟩
  have inTokens : token ∈ unit.tokens := by
    rw [unit.joined]
    exact List.mem_append_left _ (unit.mem_tokens_of_owned owned)
  have same : token = comment :=
    List.inj_on_of_nodup_map (unit.placed.nodup_span unit.chain.visible) inTokens listed span
  exact unowned ⟨place.id, same ▸ owned⟩

/-- The code of a source stands among its declarations. -/
theorem mem_outline_of_code {token : Token} (listed : token ∈ unit.tokens)
    (isCode : token.isComment = false) : token ∈ unit.outline.tokens := by
  rw [unit.joined] at listed
  rcases List.mem_append.mp listed with inside | rest
  · exact inside
  · rw [unit.comments_rest token rest] at isCode
    cases isCode

/-- A comment in the text of a declaration stands in front of the end of some code. -/
theorem exists_code_after {id : NodeId} {node : Node} (found : tree.node? id = some node)
    (encloses : node.Encloses unit.tokens comment) :
    ∃ token ∈ unit.outline.tokens, comment.stop ≤ token.stop := by
  rcases unit.exists_declaration (by rw [found]; rfl) with
    ⟨site, own, rest, rfl, among⟩ | ⟨site, shape, members, rfl, isClass⟩
  · cases among.stands.1.symm.trans found
    have plain := among.plain
    have last : site.piece.last.token ∈ unit.tokens ∧ site.piece.last.token.isComment = false := by
      have isLast : site.piece.last ∈ (Code.ofTokens unit.tokens).tokens :=
        (among.first_infix rfl).subset (List.mem_of_getLast? site.piece.getLast?_tokens)
      refine ⟨?_, ((Code.bound_ofTokens unit.tokens).1 _ isLast).token⟩
      rw [← Code.flat_ofTokens unit.tokens]
      exact List.mem_append_left _
        (List.mem_flatMap.mpr ⟨_, isLast, List.mem_append_right _ (by simp)⟩)
    have inRange : ∀ excerpt, node.source? = some excerpt →
        excerpt.range.containsSpan comment.span = true →
          comment.stop ≤ site.piece.last.token.stop := by
      intro excerpt same contains
      cases among.plain.source?_eq.symm.trans same
      rw [Span.containsSpan, Bool.and_eq_true, decide_eq_true_eq, decide_eq_true_eq] at contains
      exact contains.2
    refine ⟨site.piece.last.token, unit.mem_outline_of_code last.1 last.2, ?_⟩
    cases node with
    | classDecl decl => exact plain.elim
    | record decl => exact plain.elim
    | _ =>
        obtain ⟨excerpt, same, contains⟩ := encloses
        exact inRange excerpt same contains
  · obtain ⟨package, present⟩ := isClass.present
    cases (SyntaxTree.node?_of_class? present).symm.trans found
    obtain ⟨keyword, listed, isWord, _, _, before⟩ := encloses
    have isCode : keyword.isComment = false := by
      simp only [Token.isWord, Bool.and_eq_true, beq_iff_eq] at isWord
      rw [Token.isComment, isWord.1]
      rfl
    exact ⟨keyword, unit.mem_outline_of_code listed isCode,
      Nat.le_trans before keyword.start_le_stop⟩

theorem outline_placed : Token.Placed 0 unit.outline.tokens := by
  have placed := unit.placed
  rw [unit.joined] at placed
  exact (Token.placed_append.mp placed).1

/-- Where the last declaration ends. -/
theorem extent_last {last : NodeId} (isLast : tree.topLevel.getLast? = some last) :
    (tree.extentOf last).stop = unit.outline.stopFrom 0 := by
  rw [unit.topLevel_eq] at isLast
  have tiles := unit.among.extents unit.tiles
  refine tiles.last ?_
  rw [List.getLast?_map, isLast]
  rfl

theorem not_behind {id : NodeId} {node : Node} (visible : comment.text ≠ [])
    (found : tree.node? id = some node) (encloses : node.Encloses unit.tokens comment) :
    ¬ ∀ last, tree.topLevel.getLast? = some last → (tree.extentOf last).stop ≤ comment.start := by
  intro behind
  obtain ⟨token, inside, before⟩ := unit.exists_code_after found encloses
  have within := (unit.outline_placed.within inside).2
  have positive := Text.byteSize_pos_of_ne_nil _ visible
  have size : comment.stop = comment.start + Text.byteSize comment.text := rfl
  cases last : tree.topLevel.getLast? with
  | none =>
      rw [unit.topLevel_eq, List.getLast?_eq_none_iff] at last
      cases empty : unit.outline with
      | nil =>
          rw [empty] at inside
          cases inside
      | leaf site node rest =>
          rw [empty] at last
          cases last
      | type site shape members rest =>
          rw [empty] at last
          cases last
  | some id =>
      have stop := behind id last
      rw [unit.extent_last last] at stop
      have whole := unit.tiles.stopFrom_eq
      omega

theorem existsUnique_fate (listed : comment ∈ unit.tokens) (isComment : comment.isComment = true) :
    ∃! fate, tree.Meets unit.tokens comment fate := by
  have visible := unit.chain.visible comment listed
  by_cases owned : ∃ id, (id, comment) ∈ unit.outline.owned
  · obtain ⟨id, owner⟩ := owned
    obtain ⟨place, present, _⟩ := unit.existsUnique_place owner
    refine ⟨.bound, unit.existsUnique_place owner, ?_⟩
    intro fate meets
    cases fate with
    | bound => rfl
    | kept => exact absurd present (meets.1 place)
    | behind => exact absurd present (meets.1 place)
  · have nowhere := unit.not_hasAt listed owned
    have unbound : ¬ tree.Meets unit.tokens comment .bound := by
      rintro ⟨place, present, _⟩
      exact nowhere place present
    have inSource := listed
    rw [unit.joined] at inSource
    rcases List.mem_append.mp inSource with inside | rest
    · have known : ∀ token ∈ unit.outline.tokens, token ∈ unit.tokens := by
        intro token among
        rw [unit.joined]
        exact List.mem_append_left _ among
      rcases unit.among.owned_or_kept unit.tiles unit.outline_placed known inside isComment with
        owner | ⟨id, node, found, encloses⟩
      · exact absurd owner owned
      · refine ⟨.kept, ⟨nowhere, id, node, found, encloses⟩, ?_⟩
        intro fate meets
        cases fate with
        | bound => exact absurd meets unbound
        | kept => rfl
        | behind => exact absurd meets.2 (unit.not_behind visible found encloses)
    · have late : unit.outline.stopFrom 0 ≤ comment.start := by
        simpa using (List.mem_filter.mp rest).2
      have behind : ∀ last, tree.topLevel.getLast? = some last →
          (tree.extentOf last).stop ≤ comment.start := by
        intro last isLast
        rw [unit.extent_last isLast]
        exact late
      refine ⟨.behind, ⟨nowhere, behind⟩, ?_⟩
      intro fate meets
      cases fate with
      | bound => exact absurd meets unbound
      | kept =>
          obtain ⟨_, id, node, found, encloses⟩ := meets
          exact absurd behind (unit.not_behind visible found encloses)
      | behind => rfl

theorem exists_comment {place : CommentPlace} {found : Comment}
    (present : tree.comment? place = some found) :
    ∃ token ∈ unit.tokens, token.isComment = true ∧ found = Comment.ofToken token := by
  obtain ⟨known, tokenOf⟩ := unit.exists_of_comment? present
  obtain ⟨own, owns⟩ := unit.exists_owns known
  obtain ⟨token, isToken, rfl⟩ := tokenOf own owns
  have owned : (place.id, token) ∈ unit.outline.owned :=
    (owns.mem_owned_iff token).mpr ⟨place.list, List.mem_of_getElem? isToken⟩
  refine ⟨token, ?_, ?_, rfl⟩
  · rw [unit.joined]
    exact List.mem_append_left _ (unit.mem_tokens_of_owned owned)
  · exact unit.among.isComment_of_owned unit.tiles owned

theorem commentsIn_inOrder (id : NodeId) (list : TriviaList) :
    (tree.commentsIn id list).Pairwise fun first second => first.span.stop ≤ second.span.start := by
  by_cases known : id < tree.nodes.size
  · obtain ⟨own, owns⟩ := unit.exists_owns known
    rw [owns.commentsIn_eq, List.pairwise_map]
    exact unit.outline_placed.inOrder.sublist (owns.inOrder list)
  · have none := unit.tidy.get?_eq_none (Nat.le_of_not_lt known)
    rw [SyntaxTree.commentsIn, none]
    exact List.Pairwise.nil

theorem bindsComments : tree.BindsComments unit.tokens where
  settled _ listed isComment := unit.existsUnique_fate listed isComment
  nodes place found present := by
    obtain ⟨known, _⟩ := unit.exists_of_comment? present
    rw [SyntaxTree.node?, Array.getElem?_eq_getElem known]
    rfl
  texts place found present := by
    obtain ⟨token, listed, isComment, same⟩ := unit.exists_comment present
    refine ⟨⟨token, listed, isComment, same⟩, ?_⟩
    rw [unit.source_eq, unit.spelled, same]
    exact unit.placed.slice? unit.blank listed
  inOrder := unit.commentsIn_inOrder

end ParsedUnit

/-- Every comment of a parsed source is at one place of one list of one declaration, or stays in the
text of one, or stands behind the last; the lists have the comments in order, as the source has
them. -/
theorem SyntaxTree.bindsComments_of_parse {source : Text} {tree : SyntaxTree}
    (parsed : parse source = .ok tree) :
    tree.source = source ∧ ∃ tokens, lex source = .ok tokens ∧ tree.BindsComments tokens := by
  obtain ⟨unit⟩ := ParsedUnit.exists_of_parse parsed
  exact ⟨unit.source_eq, unit.tokens, unit.lex_source, unit.bindsComments⟩

/-- Comments around and in a package, a field and a method, in a class header, in front of the
closing brace of a class and behind it. -/
def commented : Text :=
  ("/*a*/package /*b*/p;//c\n@D /*d*/class P/*e*/\x7b/*f*/int x;//g\n" ++
    "/*h*/void m()\x7b/*i*/\x7d//j\n/*k*/\x7d//l\n/*m*/").toList

theorem SyntaxTree.commented_bindsComments_of_parse :
    ∃ tree, parse commented = .ok tree ∧
      (tree.commentsIn 3 .leading).map Comment.text = ["/*e*/".toList, "/*f*/".toList] ∧
      (tree.commentsIn 3 .dangling).map Comment.text = ["/*k*/".toList] ∧
      (tree.source = commented ∧
        ∃ tokens, lex commented = .ok tokens ∧ tree.BindsComments tokens) := by
  obtain ⟨tree, parsed, checked⟩ := exists_ok_of_any
    (show (parse commented).toOption.any (fun tree =>
      (tree.commentsIn 3 .leading).map Comment.text == ["/*e*/".toList, "/*f*/".toList] &&
        (tree.commentsIn 3 .dangling).map Comment.text == ["/*k*/".toList]) =
          true by decide +kernel)
  obtain ⟨leading, dangling⟩ := Bool.and_eq_true_iff.mp checked
  exact ⟨tree, parsed, eq_of_beq leading, eq_of_beq dangling, bindsComments_of_parse parsed⟩

end JavaRecords
