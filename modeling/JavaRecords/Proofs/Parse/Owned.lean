import Mathlib.Data.List.Nodup
import Mathlib.Data.List.Perm.Subperm
import JavaRecords.Proofs.Print.Printed
import JavaRecords.Proofs.Token.Between

set_option autoImplicit false

namespace JavaRecords

def SyntaxTree.Binds (tree : SyntaxTree) (id : NodeId) (comment : Comment) : Prop :=
  ∃ trivia, tree.trivia.get? id = some trivia ∧ comment ∈ trivia.comments

namespace Token

/-- Tokens that stand one after the other start at different bytes. -/
theorem Placed.nodup_span {offset : Nat} {tokens : List Token} (placed : Placed offset tokens)
    (visible : Visible tokens) : (tokens.map Token.span).Nodup := by
  induction tokens generalizing offset with
  | nil => exact List.nodup_nil
  | cons token rest ih =>
      obtain ⟨start, placedRest⟩ := placed_cons.mp placed
      have visibleRest : Visible rest := fun other listed =>
        visible other (List.mem_cons_of_mem _ listed)
      rw [List.map_cons, List.nodup_cons]
      refine ⟨fun again => ?_, ih placedRest visibleRest⟩
      obtain ⟨other, listed, same⟩ := List.mem_map.mp again
      have positive := Text.byteSize_pos_of_ne_nil _ (visible token List.mem_cons_self)
      have later := (placedRest.bounds visibleRest listed).1
      have equal : other.start = token.start := congrArg Span.start same
      rw [Token.stop] at later
      omega

end Token

namespace Outline

/-- The comments of a class: those before it, those in its header, those after it and those behind
its last member. -/
def classComments (site : Site) (shape : ClassShape) (members : Outline) : List Token :=
  site.lead ++ (shape.comments ++ Code.openingComments shape) ++ site.trail ++
    members.dangling shape

/-- The comments of the declarations, each with the id of its declaration. -/
def owned : Outline → List (NodeId × Token)
  | nil => []
  | leaf site _ rest => (site.lead ++ site.trail).map (Prod.mk site.id) ++ rest.owned
  | type site shape members rest =>
      (classComments site shape members).map (Prod.mk site.id) ++ (members.owned ++ rest.owned)

end Outline

namespace ClassLayout

variable {site : Site} {shape : ClassShape}

/-- The comments after the first token of a header are tokens of the header. -/
theorem comments_sublist (layout : ClassLayout site.piece shape) :
    List.Sublist shape.comments (Code.bare (site.front shape)) := by
  have within : ∀ code : List CodeToken,
      List.Sublist (code.flatMap CodeToken.comments) (Code.flat code) := by
    intro code
    induction code with
    | nil => exact List.Sublist.refl _
    | cons first rest ih =>
        rw [List.flatMap_cons, Code.flat_cons]
        exact (List.Sublist.refl _).append (ih.cons _)
  rw [layout.comments, layout.front_eq]
  refine (within _).trans ?_
  cases layout.taken with
  | nil => exact List.sublist_cons_self _ _
  | cons first rest =>
      rw [List.cons_append, Code.bare, Code.flat_append]
      refine List.Sublist.cons _ ((List.Sublist.trans ?_ (List.sublist_append_right _ _)))
      rw [Code.flat_cons layout.keyword]
      exact (List.sublist_cons_self _ _).trans (List.sublist_append_right _ _)

end ClassLayout

namespace Outline

/-- The comments of declarations are tokens of theirs. -/
theorem owned_subperm {outline : Outline} {offset : Nat} (tiles : outline.Tiles offset)
    (declared : outline.Declared) : (outline.owned.map Prod.snd).Subperm outline.tokens := by
  have second : ∀ (id : NodeId) (tokens : List Token),
      (tokens.map (Prod.mk id)).map Prod.snd = tokens := by
    intro id tokens
    rw [List.map_map]
    exact List.map_id _
  induction outline generalizing offset with
  | nil => exact List.Subperm.refl _
  | leaf site node rest ih =>
      rw [owned, List.map_append, second, tokens, Site.tokens]
      refine List.Subperm.append (List.Sublist.subperm ?_) (ih tiles.2 declared)
      exact (List.Sublist.refl _).append (List.sublist_append_right _ _)
  | type site shape members rest ihMembers ihRest =>
      obtain ⟨_, body, tilesMembers, tilesRest⟩ := tiles
      obtain ⟨declares, declaredMembers, declaredRest⟩ := declared
      obtain ⟨layout⟩ := ClassLayout.exists_of_declares declares
      rw [owned, List.map_append, List.map_append, second, tokens, ← List.append_assoc]
      refine List.Subperm.append ?_ (ihRest tilesRest declaredRest)
      have header := layout.comments_sublist.subperm
      have inner := ihMembers tilesMembers declaredMembers
      rw [body.split]
      have rearranged : (classComments site shape members ++ members.owned.map Prod.snd).Perm
          (site.lead ++ shape.comments ++ Code.openingComments shape ++
            members.owned.map Prod.snd ++ (members.dangling shape ++ site.trail)) := by
        rw [List.perm_iff_count]
        intro token
        simp only [classComments, List.count_append]
        omega
      refine rearranged.subperm.trans ?_
      refine ((((List.Subperm.refl _).append header).append (List.Subperm.refl _)).append
        inner).append (List.Sublist.subperm ?_)
      exact (List.Sublist.refl _).append (List.sublist_cons_self _ _)

/-- A comment that a tree has for one of the declarations is one of the declaration's own. -/
theorem Stands.mem_owned {source : Text} {tree : SyntaxTree} {outline : Outline} {low high : Nat}
    (stands : outline.Stands source tree) (numbered : outline.Numbered low high) {id : NodeId}
    (inside : low ≤ id ∧ id < high) {comment : Comment} (binds : tree.Binds id comment) :
    ∃ token, (id, token) ∈ outline.owned ∧ Comment.ofToken token = comment := by
  obtain ⟨found, present, listed⟩ := binds
  have ofMap : ∀ {tokens : List Token} {bound : List Comment},
      bound = tokens.map Comment.ofToken → comment ∈ bound →
      ∃ token, (id, token) ∈ tokens.map (Prod.mk id) ∧ Comment.ofToken token = comment := by
    rintro tokens bound rfl isBound
    obtain ⟨token, isToken, same⟩ := List.mem_map.mp isBound
    exact ⟨token, List.mem_map_of_mem isToken, same⟩
  induction outline generalizing low high with
  | nil =>
      have same : low = high := numbered
      exact absurd (Nat.lt_of_le_of_lt inside.1 inside.2) (by rw [same]; exact Nat.lt_irrefl _)
  | leaf site node rest ih =>
      obtain ⟨_, bears, standsRest⟩ := stands
      obtain ⟨rfl, numberedRest⟩ := numbered
      by_cases same : id = site.id
      · subst same
        rw [bears.commented found present] at listed
        have own : Trivia.comments
          ⟨(site.placed source).leading, (site.placed source).trailing, []⟩ =
            (site.lead ++ site.trail).map Comment.ofToken := by
          rw [List.map_append, Trivia.comments, List.append_nil]
          rfl
        obtain ⟨token, isToken, rfl⟩ := ofMap own listed
        exact ⟨token, List.mem_append_left _ isToken, rfl⟩
      · obtain ⟨token, isToken, rfl⟩ := ih standsRest numberedRest
          ⟨Nat.lt_of_le_of_ne inside.1 (Ne.symm same), inside.2⟩
        exact ⟨token, List.mem_append_right _ isToken, rfl⟩
  | type site shape members rest ihMembers ihRest =>
      obtain ⟨_, bears, standsMembers, standsRest⟩ := stands
      obtain ⟨numberedMembers, numberedRest⟩ := numbered
      rcases Nat.lt_trichotomy id site.id with before | same | behind
      · obtain ⟨token, isToken, rfl⟩ := ihMembers standsMembers numberedMembers ⟨inside.1, before⟩
        exact ⟨token, List.mem_append_right _ (List.mem_append_left _ isToken), rfl⟩
      · subst same
        rw [bears.commented found present] at listed
        have own : (shape.trivia (site.placed source)
            (members.stopFrom (Code.bodyStart shape))).comments =
            (classComments site shape members).map Comment.ofToken := by
          rw [classComments, List.map_append, List.map_append, List.map_append]
          rfl
        obtain ⟨token, isToken, rfl⟩ := ofMap own listed
        exact ⟨token, List.mem_append_left _ isToken, rfl⟩
      · obtain ⟨token, isToken, rfl⟩ := ihRest standsRest numberedRest ⟨behind, inside.2⟩
        exact ⟨token, List.mem_append_right _ (List.mem_append_right _ isToken), rfl⟩

end Outline

namespace ParsedUnit

variable {source : Text} {tree : SyntaxTree} (unit : ParsedUnit source tree)

include unit

/-- A comment of the source is bound to one declaration only. -/
theorem binds_unique {id other : NodeId} {comment : Comment} (binds : tree.Binds id comment)
    (bindsOther : tree.Binds other comment) : id = other := by
  have tidy : tree.Tidy :=
    unit.adds.tidy ⟨fun _ _ found => (by cases found), fun _ _ found => (by cases found)⟩
  have owner : ∀ {node : NodeId}, tree.Binds node comment →
      ∃ token, (node, token) ∈ unit.outline.owned ∧ Comment.ofToken token = comment := by
    intro node bound
    obtain ⟨trivia, present, listed⟩ := bound
    exact unit.adds.stands.mem_owned unit.adds.numbered
      ⟨Nat.zero_le _, tidy.known node trivia present⟩ ⟨trivia, present, listed⟩
  obtain ⟨token, owns, same⟩ := owner binds
  obtain ⟨twin, ownsOther, sameOther⟩ := owner bindsOther
  -- the tokens of the declarations have different spans
  have distinct : ((unit.outline.owned.map Prod.snd).map Token.span).Nodup := by
    have placed := unit.placed
    have visible := unit.chain.visible
    rw [unit.joined] at placed visible
    have whole := (Token.placed_append.mp placed).1.nodup_span (Token.Visible.append.mp visible).1
    obtain ⟨taken, order, among⟩ := Outline.owned_subperm unit.tiles unit.adds.shaped.declared
    exact (order.map _).nodup_iff.mp (whole.sublist (among.map _))
  have span : token.span = twin.span := congrArg Comment.span (same.trans sameOther.symm)
  rw [List.map_map] at distinct
  exact congrArg Prod.fst (List.inj_on_of_nodup_map distinct owns ownsOther span)

end ParsedUnit

end JavaRecords
