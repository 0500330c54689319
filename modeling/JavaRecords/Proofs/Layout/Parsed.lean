import JavaRecords.Proofs.Layout.Bodies
import JavaRecords.Proofs.Conversion.Notes

set_option autoImplicit false

namespace JavaRecords

/-- A member of a layout: its tokens, and the declaration that they are parsed as. -/
structure MemberLayout where
  tokens : List Token
  node : Nat → Excerpt → Node

namespace DataClass

def members (data : DataClass) : List MemberLayout :=
  data.fields.map (fun field => ⟨field.fieldTokens, field.fieldNode⟩) ++
    ⟨data.constructorTokens, fun _ => data.constructorNode⟩ ::
      (data.fields.filter DataField.accessor).map fun field =>
        ⟨field.accessorTokens, fun _ => field.accessorNode⟩

theorem flatMap_members (data : DataClass) :
    data.members.flatMap MemberLayout.tokens = data.memberTokens.flatten := by
  simp [members, memberTokens, List.flatMap_def, Function.comp_def]

theorem Proper.writes {data : DataClass} (proper : data.Proper) :
    ∀ member ∈ data.members, Code.Writes data.name member.tokens member.node := by
  simp only [DataClass.members, List.mem_append, List.mem_map, List.mem_cons, List.mem_filter]
  rintro member (⟨field, listed, rfl⟩ | rfl | ⟨field, ⟨listed, _⟩, rfl⟩)
  · exact DataField.writes_field (proper.types field listed) _
  · exact proper.writes_constructor
  · exact DataField.writes_accessor (proper.types field listed) (proper.free field listed) _

end DataClass

namespace Code

def PieceOf (className : Text) (piece : Piece) (member : MemberLayout) : Prop :=
  ∀ position source, memberShape className position piece source =
    .ok (.node (member.node position source))

theorem exists_pieces {className : Text} {members : List MemberLayout}
    (writes : ∀ member ∈ members, Writes className member.tokens member.node) (offset : Nat) :
    ∃ pieces, laid offset (members.flatMap MemberLayout.tokens) = pieces.flatMap Piece.tokens ∧
      Cut pieces ∧ List.Forall₂ (PieceOf className) pieces members := by
  induction members generalizing offset with
  | nil => exact ⟨[], rfl, .nil, .nil⟩
  | cons member rest ih =>
      obtain ⟨pieces, joined, cut, each⟩ := ih
        (fun other listed => writes other (List.mem_cons_of_mem _ listed))
        (offset + Text.byteSize (Token.spell member.tokens))
      have ends := (writes member List.mem_cons_self).ends offset
      rw [List.flatMap_cons, laid_append, joined]
      cases tokens : laid offset member.tokens with
      | nil =>
          rw [tokens] at ends
          cases ends
      | cons first others =>
          rw [tokens] at ends
          refine ⟨⟨first, others⟩ :: pieces, rfl, .cons ends cut,
            .cons (fun position source => ?_) each⟩
          exact (writes member List.mem_cons_self).shape offset _ position source tokens.symm

theorem nested_members {className : Text} {members : List MemberLayout}
    (writes : ∀ member ∈ members, Writes className member.tokens member.node) (offset : Nat) :
    Token.Nested ((laid offset (members.flatMap MemberLayout.tokens)).map CodeToken.token) := by
  induction members generalizing offset with
  | nil => rfl
  | cons member rest ih =>
      rw [List.flatMap_cons, laid_append, List.map_append]
      exact ((writes member List.mem_cons_self).nested offset).append
        (ih (fun other listed => writes other (List.mem_cons_of_mem _ listed)) _)

theorem exists_addMembers (scope : Scope) (block : Block) {pieces : List Piece}
    {layouts : List MemberLayout} (each : List.Forall₂ (PieceOf block.className) pieces layouts)
    (members : Members) : ∃ result, addMembers scope block members none pieces = .ok result := by
  induction each generalizing members with
  | nil => exact ⟨members, by rw [addMembers]⟩
  | @cons piece layout rest _ shapes _ ih =>
      have shape := shapes members.ids.length
        (place scope.source members.cursor piece (following block.tail rest) block.indent).source
      obtain ⟨result, added⟩ := ih
        ⟨members.tree.add (layout.node _ _) _, members.ids ++ [members.tree.nextId], _⟩
      refine ⟨result, ?_⟩
      rw [addMembers]
      split
      · rename_i error failed
        rw [shape] at failed
        cases failed
      · rename_i found same
        rw [shape] at same
        cases same
        exact added
      · rename_i found same
        rw [shape] at same
        cases same

theorem exists_parse {source : Text} {code : Code} {piece : Piece} {shape : ClassShape}
    {members : List Piece} {layouts : List MemberLayout} (read : Code.read source = .ok code)
    (whole : pieces declarationRule code.tokens = ⟨some [], [piece], none⟩)
    (isClass : UnitClass piece shape)
    (within : pieces declarationRule shape.inside = ⟨some [], members, none⟩)
    (each : List.Forall₂ (PieceOf shape.name) members layouts) :
    ∃ tree, parse source = .ok tree := by
  obtain ⟨notEmpty, run, modifiersRead, shaped⟩ := isClass.declares
  let placed := place source 0 piece code.tail []
  obtain ⟨result, added⟩ := exists_addMembers ⟨source, none⟩
    ⟨shape.name, placed.source.indent ++ indentUnit, shape.closing.comments⟩ each
    ⟨{ source }, [], bodyStart shape⟩
  have type : addType ⟨source, none⟩ { source } piece placed =
      .ok (addClass ⟨source, none⟩ shape placed result, result.tree.nextId) := by
    rw [addType, notEmpty, if_neg Bool.false_ne_true, modifiersRead]
    simp only [bind, Except.bind, shaped, addClassWithMembers, within, added]
    rfl
  rw [parse, read]
  simp only [whole, addDeclarations, isClass.noPackage, isClass.noImport, following,
    Bool.false_eq_true, if_false]
  rw [type]
  exact ⟨_, rfl⟩

end Code

namespace DataClass

open Code

def shape (data : DataClass) (opening : Nat) (inside : List CodeToken) (closing : Nat) :
    ClassShape where
  name := data.name
  typeParams := none
  modifiers := ⟨[.pub], []⟩
  headerPrefix := "public ".toList
  clauses := []
  comments := []
  opening := .ofMark [' '] '\x7b' opening
  inside
  closing := .ofMark ['\n'] '\x7d' closing

def firstCode (data : DataClass) : CodeToken :=
  { CodeToken.ofWord data.space "public".toList
      (Text.byteSize (Token.spell data.comments) + Text.byteSize data.space) with
    comments := data.comments }

def piece (data : DataClass) (keyword name opening : Nat) (inside : List CodeToken)
    (closing : Nat) : Piece :=
  ⟨data.firstCode, .ofWord [' '] "class".toList keyword :: .ofWord [' '] data.name name ::
    .ofMark [' '] '\x7b' opening :: (inside ++ [.ofMark ['\n'] '\x7d' closing])⟩

theorem exists_code (data : DataClass) : ∃ keyword name opening start closing,
    data.code = (data.piece keyword name opening
      (laid start (data.members.flatMap MemberLayout.tokens)) closing).tokens := by
  simp only [code, classTokens, laid_word, laid_mark, laid_append, laid_nil, withComments,
    flatMap_members]
  exact ⟨_, _, _, _, _, rfl⟩

section

variable (data : DataClass) (keyword name opening : Nat) (inside : List CodeToken) (closing : Nat)

theorem last_piece : (data.piece keyword name opening inside closing).last =
    .ofMark ['\n'] '\x7d' closing := by
  have final := (data.piece keyword name opening inside closing).getLast?_tokens
  simp only [Piece.tokens, piece, ← List.cons_append, List.getLast?_concat] at final
  exact (Option.some.inj final).symm

theorem unitClass_piece : UnitClass (data.piece keyword name opening inside closing)
    (data.shape opening inside closing) where
  noPackage := rfl
  noImport := rfl
  declares := by
    have keywordRead : modifiers (data.piece keyword name opening inside closing).rest =
        .ok ⟨{}, [], (data.piece keyword name opening inside closing).rest⟩ :=
      modifiers_other (by decide) (by simp)
    have read := modifiers_word data.firstCode rfl
      (show Modifier.ofWord? "public".toList = some .pub by decide) (by simp [piece]) keywordRead
    refine ⟨rfl, _, read, ?_⟩
    rw [last_piece]
    have isClass : typeKeyword? (data.piece keyword name opening inside closing).rest =
        some (.classType, (data.piece keyword name opening inside closing).rest.tail) := by
      simp [piece, typeKeyword?]
    have before : headerPrefix [data.firstCode] (some (.ofWord [' '] "class".toList keyword)) =
        "public ".toList := rfl
    rw [typeShape, isClass]
    simpa [piece, classShape, typeParams?, shape] using before

end

variable {data : DataClass} (proper : data.Proper)

include proper

/-- The code of a data class is one declaration, and the code in its braces its members. -/
theorem Proper.exists_piece : ∃ keyword name opening inside closing pieces,
    Code.pieces declarationRule data.code =
      ⟨some [], [data.piece keyword name opening inside closing], none⟩ ∧
    Code.pieces declarationRule inside = ⟨some [], pieces, none⟩ ∧
    (∀ token ∈ inside, token.comments = []) ∧
    List.Forall₂ (PieceOf data.name) pieces data.members := by
  obtain ⟨keyword, name, opening, start, closing, written⟩ := data.exists_code
  obtain ⟨pieces, joined, cut, each⟩ := exists_pieces proper.writes start
  refine ⟨keyword, name, opening, laid start (data.members.flatMap MemberLayout.tokens), closing,
    pieces, ?_, ?_, fun token listed => ?_, each⟩
  · have header : ∀ token ∈ [data.firstCode, .ofWord [' '] "class".toList keyword,
        .ofWord [' '] data.name name], token.Scanned := by
      simp only [List.mem_cons, List.not_mem_nil, or_false]
      rintro token (rfl | rfl | rfl)
      · exact ⟨fun assigns => (by cases assigns), Token.isPlain_of_isIdent rfl⟩
      · exact scanned_ofWord
      · exact scanned_ofWord
    have ends : Ends .fresh data.code := by
      rw [written]
      exact .across (across_of_scanned header) (.step (PieceScan.step_fresh_of_brace rfl)
        (ends_of_block _ (nested_members proper.writes start) rfl))
    have alone := (Cut.last (written ▸ ends.completes)).pieces_eq
    rwa [List.flatMap_singleton, ← written] at alone
  · rw [joined]
    exact cut.pieces_eq
  · obtain ⟨own, _, rfl⟩ := List.mem_map.mp listed
    rfl

theorem Proper.parse_source : ∃ tree, parse data.source = .ok tree := by
  obtain ⟨keyword, name, opening, inside, closing, pieces, whole, within, _, each⟩ :=
    proper.exists_piece
  exact exists_parse proper.read whole (data.unitClass_piece _ _ _ _ _) within each

end DataClass

def Member.Of (member : Member) (layout : MemberLayout) : Prop :=
  ∃ position source, member.node = layout.node position source

namespace Outline

open Code

variable {source className : Text} {tree : SyntaxTree}

/-- The members of a class whose pieces are read from a layout. -/
theorem Shaped.nodes {outline : Outline} {position : Nat} {layouts : List MemberLayout}
    (shaped : outline.Shaped source className position) (stands : outline.Stands source tree)
    (each : List.Forall₂ (PieceOf className) outline.pieces layouts) :
    List.Forall₂ (fun id layout => ∀ node, tree.node? id = some node →
      Member.Of ⟨id, node⟩ layout) outline.ids layouts := by
  induction outline generalizing position layouts with
  | nil =>
      cases each
      exact .nil
  | leaf site node rest ih =>
      cases each with
      | cons own others =>
          refine .cons (fun found isNode => ?_) (ih shaped.2 stands.2.2 others)
          have same := (own position _).symm.trans shaped.1
          cases same
          exact ⟨_, _, (Option.some.inj (stands.1.symm.trans isNode)).symm⟩
  | type site shape members rest _ ih =>
      cases each with
      | cons own others =>
          have isClass := (memberShape_eq_classBody_iff className position site.piece
            (site.placed source).source shape).mpr shaped.1
          rw [own] at isClass
          cases isClass

theorem UnitShaped.eq_type {outline : Outline} {piece : Piece} {shape : ClassShape}
    (shaped : outline.UnitShaped source) (pieces : outline.pieces = [piece])
    (isClass : UnitClass piece shape) : ∃ site members, outline = .type site shape members .nil ∧
      site.piece = piece ∧ members.Shaped source shape.name 0 := by
  obtain ⟨notEmpty, run, read, shapes⟩ := isClass.declares
  cases outline with
  | nil => cases pieces
  | leaf site node rest =>
      obtain ⟨rfl, _⟩ := List.cons.inj pieces
      cases shaped.1 with
      | package first => exact absurd (isClass.noPackage.symm.trans first) Bool.false_ne_true
      | imported _ first => exact absurd (isClass.noImport.symm.trans first) Bool.false_ne_true
      | textual _ _ kind name kept =>
          rcases kept with ⟨empty, _⟩ | ⟨_, other, readOther, kept⟩
          · exact absurd (notEmpty.symm.trans empty) Bool.false_ne_true
          · cases read.symm.trans readOther
            cases shapes.symm.trans kept
  | type site found members rest =>
      obtain ⟨rfl, others⟩ := List.cons.inj pieces
      obtain ⟨_, other, readOther, shapesOther⟩ := shaped.1.declares
      cases read.symm.trans readOther
      cases shapes.symm.trans shapesOther
      exact ⟨site, members, by rw [eq_nil_of_pieces others], rfl, shaped.2.1⟩

end Outline

end JavaRecords
