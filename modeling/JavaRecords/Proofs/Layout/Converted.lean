import JavaRecords.Proofs.Layout.Eligible
import JavaRecords.Proofs.Conversion.Changed
import JavaRecords.Proofs.Conversion.Idempotent
import JavaRecords.Proofs.Conversion.Resolved

set_option autoImplicit false

namespace JavaRecords

/-- A text without a carriage return has no line break that starts with one. -/
theorem Text.lineEnding_of_lacks {text : Text} (lacks : '\r' ∉ text) :
    lineEnding text = ['\n'] := by
  have absent : occursIn ['\r', '\n'] text = false := by
    induction text with
    | nil => rfl
    | cons c rest ih =>
        simp only [List.mem_cons, not_or] at lacks
        rw [occursIn, ih lacks.2]
        simp [List.isPrefixOf, lacks.1]
  simp [lineEnding, absent]

theorem Text.lacks_of_isName {name : Text} (named : name.isName = true) : '\r' ∉ name := by
  cases name with
  | nil => exact List.not_mem_nil
  | cons c rest =>
      simp only [isName, Bool.and_eq_true, List.all_eq_true] at named
      intro listed
      rcases List.mem_cons.mp listed with rfl | later
      · exact absurd named.1 (by decide)
      · exact absurd (named.2 _ later) (by decide)

namespace JavaType

mutual

theorem lacks_text : (ty : JavaType) → ty.isProper = true → '\r' ∉ ty.text
  | name word, proper => Text.lacks_of_isName (isName_of_isTypeWord proper)
  | generic word first others, proper => by
      simp only [isProper, Bool.and_eq_true] at proper
      simp [text, Text.lacks_of_isName (isName_of_isTypeWord proper.1.1),
        lacks_text first proper.1.2, lacks_furtherText others proper.2]
  | array element, proper => by
      simp [text, lacks_text element proper]

theorem lacks_furtherText : (others : List JavaType) → areProper others = true →
    '\r' ∉ furtherText others
  | [], _ => List.not_mem_nil
  | next :: rest, proper => by
      simp only [areProper, Bool.and_eq_true] at proper
      simp [furtherText, lacks_text next proper.1, lacks_furtherText rest proper.2]

end

end JavaType

theorem Text.lacks_join {separator : Text} {c : Char} (other : c ∉ separator) :
    (parts : List Text) → (∀ part ∈ parts, c ∉ part) → c ∉ join separator parts
  | [], _ => List.not_mem_nil
  | [part], each => each part List.mem_cons_self
  | part :: next :: rest, each => by
      have later := lacks_join other (next :: rest)
        fun own listed => each own (List.mem_cons_of_mem _ listed)
      simp [join, each part List.mem_cons_self, other, later]

theorem DataClass.Proper.lacks_source {data : DataClass} (proper : data.Proper) :
    '\r' ∉ data.source := by
  have names (field : DataField) (listed : field ∈ data.fields) : '\r' ∉ field.name :=
    Text.lacks_of_isName (proper.named field listed)
  have parameter (field : DataField) (listed : field ∈ data.fields) : '\r' ∉ field.parameter := by
    simp [DataField.parameter, field.ty.lacks_text (proper.types field listed), names field listed]
  have declarations : '\r' ∉ data.fields.flatMap DataField.declaration := by
    rw [List.mem_flatMap]
    rintro ⟨field, listed, inside⟩
    unfold DataField.declaration at inside
    simp [parameter field listed] at inside
  have parameters : '\r' ∉ data.parameters :=
    Text.lacks_join (by decide) _ fun part listed => by
      obtain ⟨field, among, rfl⟩ := List.mem_map.mp listed
      exact parameter field among
  have assignments : '\r' ∉ data.fields.flatMap DataField.assignment := by
    rw [List.mem_flatMap]
    rintro ⟨field, listed, inside⟩
    unfold DataField.assignment at inside
    simp [names field listed] at inside
  have accessors : '\r' ∉ (data.fields.filter DataField.accessor).flatMap
      DataField.accessorLines := by
    rw [List.mem_flatMap]
    rintro ⟨field, listed, inside⟩
    have among := (List.mem_filter.mp listed).1
    unfold DataField.accessorLines at inside
    simp [parameter field among, names field among] at inside
  have header : '\r' ∉ data.header := by
    unfold header
    split <;> decide
  have name : '\r' ∉ data.name := Text.lacks_of_isName (Text.isName_of_isFreeName proper.name)
  unfold DataClass.source
  simp [header, name, declarations, parameters, assignments, accessors]

namespace DataClass

open Code

variable {data : DataClass} {tree : SyntaxTree}

theorem Proper.ofTokens_eq (proper : data.Proper) (unit : ParsedUnit data.source tree) :
    Code.ofTokens unit.tokens = ⟨data.code, []⟩ := by
  have read := proper.read
  rw [Code.read, unit.lex_source] at read
  exact Except.ok.inj read

theorem Proper.rest_eq (proper : data.Proper) (unit : ParsedUnit data.source tree) :
    unit.rest = ['\n'] := by
  have lexed := unit.lexed.symm.trans proper.lexed
  rw [ParsedUnit.rest, proper.ofTokens_eq unit, (Lexed.mk.inj lexed).2.1]
  rfl

/-- The outline of a data class, of which the one type has the piece and the members that were laid
out. -/
structure Outlined (data : DataClass) (unit : ParsedUnit data.source tree) (site : Site)
    (shape : ClassShape) (members : Outline) : Prop where
  outline : unit.outline = .type site shape members .nil
  shape : ∃ opening inside closing, shape = data.shape opening inside closing ∧
    ∀ token ∈ inside, token.comments = []
  first : site.piece.first = data.firstCode
  shaped : members.Shaped data.source data.name 0
  pieces : List.Forall₂ (PieceOf data.name) members.pieces data.members

theorem Proper.exists_outlined (proper : data.Proper) (unit : ParsedUnit data.source tree) :
    ∃ site shape members, data.Outlined unit site shape members := by
  obtain ⟨keyword, name, opening, inside, closing, pieces, whole, within, free, each⟩ :=
    proper.exists_piece
  have isPiece := unit.pieces
  rw [proper.ofTokens_eq unit, whole] at isPiece
  obtain ⟨site, members, outline, first, shaped⟩ := unit.adds.shaped.eq_type isPiece.symm
    (data.unitClass_piece keyword name opening inside closing)
  refine ⟨site, _, members, outline, ⟨opening, inside, closing, rfl, free⟩, by rw [first]; rfl,
    shaped, ?_⟩
  have laid := unit.adds.laid
  rw [outline] at laid
  have isMembers := laid.2.2.1
  rw [show (data.shape opening inside closing).inside = inside from rfl, within] at isMembers
  exact isMembers ▸ each

theorem exists_source (data : DataClass) : ∃ rest, data.source = data.header ++ rest := by
  unfold source
  exact ⟨_, by simp only [List.append_assoc]; rfl⟩

/-- The line before a class that has a comment is its comment and a line break. -/
theorem spell_header (data : DataClass) :
    Token.spell data.comments ++ data.space = data.header := by
  unfold comments space header
  split <;> rfl

theorem indentAt_firstCode (data : DataClass) (otherwise : Text) :
    indentAt data.source data.firstCode.start otherwise = [] := by
  obtain ⟨rest, joined⟩ := data.exists_source
  have start : data.firstCode.start = Text.byteSize data.header := by
    rw [← spell_header, Text.byteSize_append]
    rfl
  rw [indentAt, start, joined, Text.splitAt?_append, Option.bind_some]
  unfold header
  split <;> rfl

namespace Outlined

variable {unit : ParsedUnit data.source tree} {site : Site} {shape : ClassShape} {members : Outline}
  (outlined : data.Outlined unit site shape members)

include outlined

theorem site_eq (proper : data.Proper) : site.cursor = 0 ∧ site.following = [] ∧
    site.indent = [] := by
  have laid := unit.adds.laid
  rw [outlined.outline, proper.ofTokens_eq unit] at laid
  exact ⟨laid.1.cursor, laid.1.following, laid.1.indent⟩

theorem placed_eq (proper : data.Proper) : (site.placed data.source).leading =
      data.comments.map Comment.ofToken ∧ (site.placed data.source).trailing = [] ∧
    (site.placed data.source).source.indent = [] ∧
    (site.placed data.source).source.extent.start = 0 := by
  obtain ⟨cursor, following, indent⟩ := outlined.site_eq proper
  refine ⟨?_, ?_, ?_, cursor⟩
  · have all : commentsFrom 0 data.comments = data.comments :=
      List.filter_eq_self.mpr fun _ _ => by simp
    simp [Site.placed, place, cursor, outlined.first, firstCode, all]
  · simp [Site.placed, place, following, sameLine]
  · have own := data.indentAt_firstCode site.indent
    rw [← outlined.first] at own
    exact own

/-- The comments of a data class are those before it. -/
theorem trivia_eq (proper : data.Proper) (cursor : Nat) :
    shape.trivia (site.placed data.source) cursor =
      ⟨data.comments.map Comment.ofToken, [], []⟩ := by
  obtain ⟨opening, inside, closing, rfl, free⟩ := outlined.shape
  obtain ⟨leading, trailing, _, _⟩ := outlined.placed_eq proper
  have none : openingComments (data.shape opening inside closing) = [] := by
    cases inside with
    | nil => rfl
    | cons first rest =>
        have own := free first List.mem_cons_self
        simp [openingComments, DataClass.shape, own, sameLine]
  rw [ClassShape.trivia, leading, trailing, none]
  simp [DataClass.shape, commentsFrom]

/-- The class of the unit, and its members as they are looked up. -/
theorem exists_view : ∃ package found,
    tree.node? site.id = some (.classDecl (shape.decl package members.ids
      (site.placed data.source).source)) ∧
    tree.resolveClass site.id = .ok (some ⟨site.id, shape.decl package members.ids
      (site.placed data.source).source, found⟩) ∧
    List.Forall₂ Member.Of found data.members := by
  have stands := unit.adds.stands
  rw [outlined.outline] at stands
  obtain ⟨⟨package, isNode⟩, _, memberStands, _⟩ := stands
  have present : tree.class? site.id = some (shape.decl package members.ids
      (site.placed data.source).source) := by
    rw [SyntaxTree.class?, isNode]
  obtain ⟨view, resolved⟩ := SyntaxTree.exists_view unit.bodied present (unit.proper present)
  have looked := resolved
  simp only [SyntaxTree.resolveClass, isNode, bind, Except.bind, ClassShape.decl] at looked
  cases read : tree.resolveMembers [] none members.ids with
  | error violation =>
      rw [read] at looked
      cases looked
  | ok found =>
      rw [read] at looked
      cases looked
      refine ⟨package, found, isNode, resolved, ?_⟩
      obtain ⟨ids, _, _, nodes⟩ := SyntaxTree.resolveMembers_sound read
      have each := outlined.shaped.nodes memberStands outlined.pieces
      rw [← ids, List.forall₂_map_left_iff] at each
      exact ((List.forall₂_and_left found data.members).mpr ⟨nodes, each⟩).imp
        fun member layout read => read.2 member.node read.1

/-- The record that takes the place of a data class: it starts the source, and has the fields as its
components and no members. -/
structure Becomes (data : DataClass) (record : RecordDecl) : Prop where
  name : record.name = data.name
  typeParams : record.typeParams = none
  headerPrefix : record.headerPrefix = "public ".toList
  interfaces : record.interfaces = none
  indent : record.indent = []
  start : record.extent.start = 0
  members : record.members = []
  components : record.components.map RecordComponent.render = data.fields.map DataField.parameter

theorem exists_replacement (proper : data.Proper) : ∃ replacement,
    tree.replacements.lookup site.id = some replacement ∧ tree.isEligible site.id = true ∧
      Becomes data replacement.record := by
  obtain ⟨package, found, isNode, resolved, each⟩ := outlined.exists_view
  obtain ⟨opening, inside, closing, rfl, _⟩ := outlined.shape
  obtain ⟨own, canonical, others, rfl, split⟩ := data.exists_split each
  let decl := (data.shape opening inside closing).decl package members.ids
    (site.placed data.source).source
  let view : ClassView := ⟨site.id, decl, own ++ canonical :: others⟩
  obtain ⟨eligible, classified, components, isCanonical⟩ :=
    split.exists_eligible site.id decl proper rfl rfl
  have retained : (view.partition eligible).retained = [] :=
    split.retained_partition proper components isCanonical
  obtain ⟨_, _, indent, start⟩ := outlined.placed_eq proper
  have types : tree.unit.types = [site.id] := by
    rw [unit.types, outlined.outline]
    rfl
  have present : tree.class? site.id = some decl := by
    rw [SyntaxTree.class?, isNode]
  have judged : (tree.judge site.id).verdict =
      .replace ⟨view.toRecord eligible (view.partition eligible), view.partition eligible⟩ :=
    (tree.judge_eq_replace_iff _ _).mpr ⟨view, eligible, resolved, classified, rfl⟩
  have isTarget : site.id ∈ tree.targets := (tree.mem_targets_iff site.id).mpr
    ⟨⟨site.id, by rw [types]; exact List.mem_cons_self, .refl⟩, .inl (by rw [present]; rfl)⟩
  refine ⟨_, (tree.lookup_replacements _ _).mpr ⟨isTarget, judged⟩,
    (tree.judge_replaces_iff site.id).mp ⟨_, judged⟩, rfl, rfl, rfl, rfl, indent, start,
    retained, ?_⟩
  rw [ClassView.toRecord, components, List.map_map, DataClass.components, zipWith_component,
    List.map_map]
  conv_rhs => rw [← List.map_snd_zip (Nat.le_of_eq split.length_own.symm), List.map_map]
  refine List.map_congr_left fun pair _ => ?_
  simp [Component.toRecordComponent, DataField.component, RecordComponent.render,
    DataField.parameter]

omit outlined in
/-- The first line of the record. -/
theorem Becomes.recordHeader_eq {record : RecordDecl} (becomes : Becomes data record) :
    SyntaxTree.recordHeader record = "public record ".toList ++ data.name ++ ['('] ++
      data.parameters ++ ") \x7b".toList := by
  rw [SyntaxTree.recordHeader, becomes.name, becomes.typeParams, becomes.headerPrefix,
    becomes.interfaces, becomes.indent, becomes.components, ← parameters]
  simp

omit outlined in
theorem commentLines_comments (data : DataClass) :
    SyntaxTree.commentLines [] ['\n'] (data.comments.map Comment.ofToken) = data.header := by
  unfold comments header
  split <;> rfl

/-- The record is printed in the place of the class. -/
theorem printed_eq (proper : data.Proper) {replacement : Replacement}
    (chosen : tree.replacements.lookup site.id = some replacement)
    (becomes : Becomes data replacement.record) :
    unit.outline.printed tree.printing ++ unit.rest = data.record := by
  obtain ⟨package, found, isNode, _, _⟩ := outlined.exists_view
  have stands := unit.adds.stands
  rw [outlined.outline] at stands
  have present : tree.class? site.id = some (shape.decl package members.ids
      (site.placed data.source).source) := by
    rw [SyntaxTree.class?, isNode]
  have image := unit.bears_image (by rw [isNode]; rfl) (unit.not_gone_of_class present)
    stands.2.1
  have newline : tree.printing.newline = ['\n'] := by
    rw [Printing.newline, unit.printing_source]
    exact Text.lineEnding_of_lacks proper.lacks_source
  have isRecord : tree.printing.record? site.id = some replacement.record := by
    simp [SyntaxTree.printing, chosen]
  have separator : tree.printing.separator replacement.record = [] := by
    simp [Printing.separator, becomes.start]
  rw [outlined.outline, Outline.printed, isRecord, proper.rest_eq unit]
  simp only [separator, Printing.record, image.leading, image.trailing, image.dangling,
    outlined.trivia_eq proper, becomes.members, becomes.indent, becomes.recordHeader_eq, newline,
    commentLines_comments, Outline.printed, List.filterMap_nil, Printing.lines,
    SyntaxTree.commentTail, List.flatMap_nil, List.append_nil, List.nil_append]
  unfold record
  simp

end Outlined

end DataClass

/-- A data class with any number of fields, of types of any depth, with accessors for some of them
and with or without a comment, becomes the record with its fields as components. -/
theorem DataClass.convertSource_source (data : DataClass) (proper : data.Proper) :
    ∃ conversion, convertSource data.source = .ok conversion ∧
      conversion.output = data.record ∧ conversion.isChanged = true := by
  obtain ⟨tree, parsed⟩ := proper.parse_source
  obtain ⟨unit⟩ := ParsedUnit.exists_of_parse parsed
  obtain ⟨site, shape, members, outlined⟩ := proper.exists_outlined unit
  obtain ⟨replacement, chosen, eligible, becomes⟩ := outlined.exists_replacement proper
  have types : tree.unit.types = [site.id] := by
    rw [unit.types, outlined.outline]
    rfl
  have changed : tree.convertUnit.isChanged = true :=
    SyntaxTree.isChanged_of_isEligible (by rw [types]; exact List.mem_cons_self) eligible
  refine ⟨⟨data.record, tree.convertUnit.reports⟩, ?_, rfl, ?_⟩
  · have converts := unit.convertSource_eq parsed
    rw [outlined.printed_eq proper chosen becomes] at converts
    exact converts
  · rw [SourceConversion.isChanged_eq, changed]

/-- A data class with a field of a nested type, which has an accessor, and one of a primitive type.
-/
def entryClass : DataClass where
  name := "Entry".toList
  fields := [
    ⟨.generic "Map".toList (.array (.name "int".toList))
      [.generic "List".toList (.name "String".toList) []], "sealed".toList, true⟩,
    ⟨.name "long".toList, "record".toList, false⟩]
  commented := true

def entrySource : Text := List.flatten [
  "/** generated */\n".toList,
  "public class Entry \x7b\n".toList,
  "    private final Map<int[], List<String>> sealed;\n".toList,
  "    private final long record;\n".toList,
  "\n    Entry(Map<int[], List<String>> sealed, long record) \x7b\n".toList,
  "        this.sealed = sealed;\n".toList,
  "        this.record = record;\n    \x7d\n".toList,
  "\n    public Map<int[], List<String>> sealed() \x7b\n".toList,
  "        return sealed;\n    \x7d\n".toList,
  "\x7d\n".toList]

def entryRecord : Text := List.flatten [
  "/** generated */\n".toList,
  "public record Entry(Map<int[], List<String>> sealed, long record) \x7b\n".toList,
  "\x7d\n".toList]

theorem proper_entryClass : entryClass.Proper where
  name := by decide
  notSealed := by decide
  nonempty := by decide
  fieldNames := by decide
  types := by decide
  distinct := by decide

theorem convertSource_entrySource : ∃ conversion, convertSource entrySource = .ok conversion ∧
    conversion.output = entryRecord ∧ conversion.isChanged = true := by
  have source : entryClass.source = entrySource := by decide +kernel
  have record : entryClass.record = entryRecord := by decide +kernel
  rw [← source, ← record]
  exact DataClass.convertSource_source entryClass proper_entryClass

end JavaRecords
