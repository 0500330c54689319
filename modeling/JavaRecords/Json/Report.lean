import JavaRecords.Conversion.Unit
import JavaRecords.Json.Value

set_option autoImplicit false

namespace JavaRecords

def Json.tagged (kind : String) (fields : List (String × Json)) : Json :=
  .obj (("kind", .str kind) :: fields)

def IneligibleReason.toJson : IneligibleReason → Json
  | .notAClass => .tagged "not_a_class" []
  | .extendsClass superclass => .tagged "extends_class" [("superclass", .text superclass)]
  | .incompatibleModifier modifier =>
      .tagged "incompatible_modifier" [("modifier", .str modifier.spelling)]
  | .instanceInitializer => .tagged "instance_initializer" []
  | .multipleDeclarators declaration =>
      .tagged "multiple_declarators" [("declaration", .text declaration)]
  | .instanceFieldNotComponent field =>
      .tagged "instance_field_not_component" [("field", .text field)]
  | .noComponents => .tagged "no_components" []
  | .noCanonicalConstructor => .tagged "no_canonical_constructor" []
  | .componentWritten field member =>
      .tagged "component_written_outside_canonical_constructor"
        [("field", .text field), ("member", .text member)]

def Violation.kind : Violation → String
  | .unknownNode _ => "unknown_node"
  | .notAMember _ _ => "not_a_member"
  | .duplicateMember _ => "duplicate_member"
  | .fieldOutOfOrder _ _ => "field_out_of_order"
  | .malformedBody _ => "malformed_body"

def Violation.toJson (violation : Violation) : Json :=
  .tagged violation.kind <| match violation with
    | .unknownNode id => [("id", .num id)]
    | .notAMember id kind => [("id", .num id), ("node_kind", .str kind.label)]
    | .duplicateMember id => [("id", .num id)]
    | .fieldOutOfOrder field position => [("field", .text field), ("position", .num position)]
    | .malformedBody member => [("member", .text member)]

def Diagnostic.toJson : Diagnostic → Json
  | .nonPublicAccessor method => .tagged "non_public_accessor" [("method", .text method)]
  | .ambiguousCanonicalConstructor candidates =>
      .tagged "ambiguous_canonical_constructor" [("candidates", .num candidates)]

def ClassOutcome.jsonFields : ClassOutcome → List (String × Json)
  | .unchanged reason => [("outcome", .str "unchanged"), ("reason", reason.toJson)]
  | .converted record components elided retained =>
      [("outcome", .str "rewritten"), ("record", .num record),
        ("components", .arr (components.map .text)), ("elided", .num elided),
        ("retained", .num retained)]
  | .failed violation => [("outcome", .str "failed"), ("violation", violation.toJson)]

def ClassReport.toJson (report : ClassReport) : Json :=
  .obj ([("class", .num report.id), ("name", .text report.name), ("line", .num report.line)]
    ++ report.outcome.jsonFields
    ++ [("diagnostics", .arr (report.diagnostics.map Diagnostic.toJson))])

end JavaRecords
