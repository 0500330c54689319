import JavaRecords.Conversion.Partition

set_option autoImplicit false

namespace JavaRecords

/-- The record that takes the place of a class: the header of the class, its components, and the
members it keeps. -/
def ClassView.toRecord (view : ClassView) (eligible : Eligible) (partition : Partition) :
    RecordDecl :=
  let decl := view.decl
  { name := decl.name
    typeParams := decl.typeParams
    modifiers := decl.modifiers
    headerPrefix := decl.headerPrefix
    interfaces := decl.interfaces
    package := decl.package
    components := eligible.components.map Component.toRecordComponent
    members := partition.retained
    indent := decl.source.indent
    extent := decl.source.extent
    origin := view.id }

namespace TriviaTable

/-- The comments that `source` has for a declaration, put under an id. Without any, the table stays
as it is. -/
def copyFrom (table source : TriviaTable) (id target : NodeId) : TriviaTable :=
  match source.get? id with
  | some trivia => table.insert target trivia
  | none => table

/-- Moves comments when the record `record` takes the place of the class `id`: the comments of
elided members go, those of retained members are as in `input`, and those of the class become the
record's. -/
def moveToRecord (table input : TriviaTable) (id : NodeId) (partition : Partition)
    (record : NodeId) : TriviaTable :=
  let withoutElided := partition.elided.foldl (fun table member => table.erase member.1) table
  let withRetained :=
    partition.retained.foldl (fun table member => table.copyFrom input member member) withoutElided
  (withRetained.erase id).copyFrom input id record

def move (table : TriviaTable) (id target : NodeId) : TriviaTable :=
  match table.get? id with
  | some trivia => (table.erase id).insert target trivia
  | none => table

end TriviaTable

end JavaRecords
