import JavaRecords.Conversion.Rebuild
import JavaRecords.Parse.Unit
import JavaRecords.Print

set_option autoImplicit false

namespace JavaRecords

inductive ClassOutcome where
  | unchanged (reason : IneligibleReason)
  | converted (record : NodeId) (components : List Text) (elided retained : Nat)
  | failed (violation : Violation)
  deriving DecidableEq, Repr

def ClassOutcome.isConverted : ClassOutcome → Bool
  | .converted .. => true
  | _ => false

def ClassOutcome.isFailed : ClassOutcome → Bool
  | .failed _ => true
  | _ => false

/-- What became of a class, with its name and its line in the source. The line of a node without a
source is zero. -/
structure ClassReport where
  id : NodeId
  name : Text
  line : Nat
  outcome : ClassOutcome
  diagnostics : List Diagnostic
  deriving DecidableEq, Repr

/-- What is decided about a class before the tree is built. -/
inductive Verdict where
  | unchanged (reason : IneligibleReason)
  | replace (replacement : Replacement)
  | failed (violation : Violation)
  deriving DecidableEq, Repr

/-- A class with what is decided about it and the notes on it. -/
structure Judged where
  id : NodeId
  verdict : Verdict
  diagnostics : List Diagnostic
  deriving DecidableEq, Repr

namespace SyntaxTree

/-- Decides what becomes of a class. -/
def judge (tree : SyntaxTree) (id : NodeId) : Judged :=
  match tree.resolveClass id with
  | .error violation => ⟨id, .failed violation, []⟩
  | .ok none => ⟨id, .unchanged .notAClass, []⟩
  | .ok (some view) =>
      match view.classifyWithDiagnostics with
      | (.ineligible reason, notes) => ⟨id, .unchanged reason, notes⟩
      | (.eligible eligible, notes) =>
          let partition := view.partition eligible
          ⟨id, .replace ⟨view.toRecord eligible partition, partition⟩,
            notes ++ partition.diagnostics⟩

def staticMemberClasses (tree : SyntaxTree) (decl : ClassDecl) : List NodeId :=
  decl.members.filter fun member =>
    (tree.class? member).any fun nested => nested.modifiers.has .static

/-- The classes to convert, each before its member classes: those of `pending`, and the static
member classes they lead to. Unknown ids of `pending` are listed too, and no id is listed twice.
`seen` are the ids already listed. -/
def targetsFrom (tree : SyntaxTree) (seen : List NodeId) (pending : List NodeId) : List NodeId :=
  match pending with
  | [] => []
  | id :: rest =>
      if _met : seen.contains id then targetsFrom tree seen rest
      else match tree.node? id with
        | none => id :: targetsFrom tree (id :: seen) rest
        | some _ =>
            match _found : tree.class? id with
            | none => targetsFrom tree seen rest
            | some decl =>
                id :: targetsFrom tree (id :: seen) (tree.staticMemberClasses decl ++ rest)
termination_by (unvisited tree.nodes.size seen, pending.length)
decreasing_by
  · exact Prod.Lex.right _ (by simp)
  · rcases Nat.lt_or_eq_of_le (unvisited_cons_le tree.nodes.size seen id) with fewer | same
    · exact Prod.Lex.left _ _ fewer
    · rw [same]
      exact Prod.Lex.right _ (by simp)
  · exact Prod.Lex.right _ (by simp)
  · exact Prod.Lex.left _ _ (unvisited_cons_lt _ _ _ (lt_of_class? _found) _met)

/-- The classes that a conversion of the unit considers. -/
def targets (tree : SyntaxTree) : List NodeId := tree.targetsFrom [] tree.unit.types

def report (tree : SyntaxTree) (judged : Judged) (outcome : ClassOutcome) : ClassReport :=
  let node? := tree.node? judged.id
  { id := judged.id
    name := (node?.bind Node.name?).getD "<unknown>".toList
    line := ((node?.bind Node.source?).map fun source =>
      Text.lineOf tree.source source.range.start).getD 0
    outcome
    diagnostics := judged.diagnostics }

end SyntaxTree

/-- The classes that become records. -/
def replacementsOf (judged : List Judged) : List (NodeId × Replacement) :=
  judged.filterMap fun entry =>
    match entry.verdict with
    | .replace replacement => some (entry.id, replacement)
    | _ => none

/-- What became of a class in a conversion. -/
def Rebuild.outcome? (state : Rebuild) (judged : Judged) : Option ClassOutcome :=
  match judged.verdict with
  | .unchanged reason => some (.unchanged reason)
  | .failed violation => some (.failed violation)
  | .replace replacement => (state.replaced.lookup judged.id).map fun record =>
      .converted record (replacement.record.components.map RecordComponent.name)
        replacement.partition.elided.length replacement.partition.retained.length

/-- The tree of a conversion and the reports on its classes. -/
structure UnitConversion where
  tree : SyntaxTree
  reports : List ClassReport
  deriving DecidableEq, Repr

def convertedCount (reports : List ClassReport) : Nat :=
  (reports.filter fun report => report.outcome.isConverted).length

namespace UnitConversion

def converted (conversion : UnitConversion) : Nat := convertedCount conversion.reports

def isChanged (conversion : UnitConversion) : Bool := conversion.converted > 0

end UnitConversion

namespace SyntaxTree

/-- Converts the classes of a list that can become records. -/
def convert (tree : SyntaxTree) (ids : List NodeId) : UnitConversion :=
  let judged := ids.map tree.judge
  let state := Rebuild.run tree (replacementsOf judged)
  { tree := state.tree
    reports := judged.filterMap fun entry => (state.outcome? entry).map (tree.report entry) }

/-- Converts the classes of the unit and, in turn, their static member classes. Inner classes are
left alone. -/
def convertUnit (tree : SyntaxTree) : UnitConversion := tree.convert tree.targets

/-- Converts one class, and leaves the others as they are. -/
def convertClass (tree : SyntaxTree) (id : NodeId) : UnitConversion := tree.convert [id]

end SyntaxTree

/-- A converted source and the reports on its classes. -/
structure SourceConversion where
  output : Text
  reports : List ClassReport
  deriving DecidableEq, Repr

def SourceConversion.isChanged (conversion : SourceConversion) : Bool :=
  conversion.reports.any fun report => report.outcome.isConverted

/-- Parses, converts and prints a source. A source in which no class becomes a record stays as it
is. -/
def convertSource (source : Text) : Except ParseError SourceConversion := do
  let tree ← parse source
  let conversion := tree.convertUnit
  let output := if conversion.isChanged then conversion.tree.print else source
  return ⟨output, conversion.reports⟩

theorem convertSource_eq_ok_iff {source : Text} {conversion : SourceConversion} :
    convertSource source = .ok conversion ↔ ∃ tree, parse source = .ok tree ∧
      conversion = ⟨if tree.convertUnit.isChanged then tree.convertUnit.tree.print else source,
        tree.convertUnit.reports⟩ := by
  unfold convertSource
  cases parse source with
  | error error =>
      constructor
      · rintro ⟨⟩
      · rintro ⟨_, ⟨⟩, _⟩
  | ok tree =>
      constructor
      · rintro ⟨⟩
        exact ⟨tree, rfl, rfl⟩
      · rintro ⟨_, ⟨⟩, rfl⟩
        rfl

end JavaRecords
