import JavaRecords.Proofs.Conversion.Untouched
import JavaRecords.Proofs.Indexed.Unit
import JavaRecords.Proofs.Indexed.Writes
import JavaRecords.Proofs.Parse.Ranges

set_option autoImplicit false

namespace JavaRecords.Indexed

theorem toOption_mapError {α ε ε' : Type} (result : Except ε α) (f : ε → ε') :
    (result.mapError f).toOption = result.toOption := by
  cases result <;> rfl

theorem isOk_eq_isSome {α ε : Type} (result : Except ε α) :
    result.isOk = result.toOption.isSome := by
  cases result <;> rfl

def lineOf (text : Text) (offset : Nat) : Run Nat :=
  if offset ≤ Text.byteSize text then return Text.lineOf text offset
  else .error (.fault (.cut 0 offset))

def isBlock (body : Body) : Run Bool :=
  let text := Text.trim body.text
  if text.head? == some '{' && text.getLast? == some '}' then do
    let tokens ← attempt (lex text)
    return tokens.isSome
  else return false

theorem isBlock_eq (body : Body) : isBlock body = .ok body.isBlock := by
  simp only [isBlock, Body.isBlock, lex_eq, attempt_lift, toOption_mapError, isOk_eq_isSome]
  split
  · rename_i braced
    rw [braced, Bool.true_and]
    rfl
  · rename_i bare
    rw [Bool.eq_false_iff.mpr bare]
    rfl

section

variable (tree : SyntaxTree) (seen : List NodeId) (lastField : Option Nat)

/-- Checks one member, as `SyntaxTree.checkMember` does. -/
def checkMember (id : NodeId) : Run (Except Violation Node) :=
  match tree.node? id with
  | none => return .error (.unknownNode id)
  | some node =>
      if !node.isMember then return .error (.notAMember id node.kind)
      else if seen.contains id then return .error (.duplicateMember id)
      else match node with
        | .field decl =>
            if lastField.any fun last => decl.position ≤ last then
              return .error (.fieldOutOfOrder decl.name decl.position)
            else return .ok node
        | _ =>
            match node.labelledBody? with
            | some (label, body) => do
                return if ← isBlock body then .ok node else .error (.malformedBody label)
            | none => return .ok node

theorem checkMember_eq (id : NodeId) :
    checkMember tree seen lastField id = .ok (tree.checkMember seen lastField id) := by
  unfold checkMember SyntaxTree.checkMember
  cases tree.node? id with
  | none => rfl
  | some node =>
      dsimp only
      split
      · rfl
      · split
        · rfl
        · cases node with
          | field decl =>
              dsimp only
              split <;> rfl
          | _ =>
              dsimp only
              generalize Node.labelledBody? _ = labelled
              cases labelled with
              | none => rfl
              | some labelled =>
                  simp only [isBlock_eq]
                  rfl

end

def resolveMembers (tree : SyntaxTree) (seen : List NodeId) (lastField : Option Nat) :
    List NodeId → Run (Except Violation (List Member))
  | [] => return .ok []
  | id :: rest => do
      match ← checkMember tree seen lastField id with
      | .error violation => return .error violation
      | .ok node =>
          let lastField := match node with
            | .field decl => some decl.position
            | _ => lastField
          let members ← resolveMembers tree (id :: seen) lastField rest
          return members.map (⟨id, node⟩ :: ·)

theorem resolveMembers_eq (tree : SyntaxTree) (seen : List NodeId) (lastField : Option Nat)
    (ids : List NodeId) :
    resolveMembers tree seen lastField ids = .ok (tree.resolveMembers seen lastField ids) := by
  induction ids generalizing seen lastField with
  | nil => rfl
  | cons id rest ih =>
      rw [resolveMembers, checkMember_eq, ok_bind, SyntaxTree.resolveMembers]
      cases tree.checkMember seen lastField id with
      | error violation => rfl
      | ok node =>
          dsimp only
          rw [ih]
          rfl

def resolveClass (tree : SyntaxTree) (id : NodeId) : Run (Except Violation (Option ClassView)) :=
  match tree.node? id with
  | none => return .error (.unknownNode id)
  | some (.classDecl decl) => do
      let members ← resolveMembers tree [] none decl.members
      return members.map fun members => some ⟨id, decl, members⟩
  | some _ => return .ok none

theorem resolveClass_eq (tree : SyntaxTree) (id : NodeId) :
    resolveClass tree id = .ok (tree.resolveClass id) := by
  unfold resolveClass SyntaxTree.resolveClass
  cases tree.node? id with
  | none => rfl
  | some node =>
      cases node with
      | classDecl decl =>
          simp only [resolveMembers_eq]
          rfl
      | _ => rfl

def componentWrittenBy? (node : Node) (components : List Component) : Run (Option Text) :=
  match node.writingCode? with
  | none => return none
  | some (code, params) => do
      let writes ← attempt (scanWrites code)
      let locals ← attempt (scanDeclaredNames code)
      let write := (writes.getD []).find? fun write =>
        components.any (fun component => component.name == write.name)
          && (write.qualified ||
            !(params.contains write.name || (locals.getD []).contains write.name))
      return write.map VariableWrite.name

theorem componentWrittenBy?_eq (node : Node) (components : List Component) :
    componentWrittenBy? node components =
      .ok (JavaRecords.componentWrittenBy? node components) := by
  unfold componentWrittenBy? JavaRecords.componentWrittenBy?
  cases node.writingCode? with
  | none => rfl
  | some coded =>
      simp only [scanWrites_eq, scanDeclaredNames_eq, attempt_lift, toOption_mapError, ok_bind,
        Option.map_eq_bind]
      rfl

/-- The first assignment to a component in some members outside the canonical constructor. -/
def strayWrite? (components : List Component) (canonical : NodeId) :
    List Member → Run (Option IneligibleReason)
  | [] => return none
  | member :: rest =>
      if member.id = canonical then strayWrite? components canonical rest
      else do
        match ← componentWrittenBy? member.node components with
        | some name => return some (.componentWritten name member.node.describe)
        | none => strayWrite? components canonical rest

theorem strayWrite?_eq (components : List Component) (canonical : NodeId) (members : List Member) :
    strayWrite? components canonical members =
      .ok (members.findSome? fun member =>
        if member.id = canonical then none
        else (JavaRecords.componentWrittenBy? member.node components).map
          (.componentWritten · member.node.describe)) := by
  induction members with
  | nil => rfl
  | cons member rest ih =>
      rw [strayWrite?, List.findSome?_cons]
      split
      · exact ih
      · rw [componentWrittenBy?_eq, ok_bind, ih]
        cases JavaRecords.componentWrittenBy? member.node components <;> rfl

/-- Whether a class can become a record, and the notes that come up on the way. -/
def classify (view : ClassView) : Run (Classification × List Diagnostic) :=
  match view.components with
  | .error reason => return (.ineligible reason, [])
  | .ok components =>
      match view.canonicalConstructors components with
      | [] => return (.ineligible .noCanonicalConstructor, [])
      | canonical :: others => do
          let notes := if others.isEmpty then []
            else [.ambiguousCanonicalConstructor (others.length + 1)]
          match ← strayWrite? components canonical view.members with
          | some reason => return (.ineligible reason, notes)
          | none => return (.eligible ⟨components, canonical⟩, notes)

theorem classify_eq (view : ClassView) : classify view = .ok view.classifyWithDiagnostics := by
  unfold classify ClassView.classifyWithDiagnostics
  cases view.components with
  | error reason => rfl
  | ok components =>
      dsimp only
      cases view.canonicalConstructors components with
      | nil => rfl
      | cons canonical others =>
          dsimp only
          have stray := strayWrite?_eq components canonical view.members
          change _ = Except.ok (view.strayWrite? components canonical) at stray
          rw [stray, ok_bind]
          cases view.strayWrite? components canonical <;> rfl

/-- Decides what becomes of a class. -/
def judge (tree : SyntaxTree) (id : NodeId) : Run Judged := do
  match ← resolveClass tree id with
  | .error violation => return ⟨id, .failed violation, []⟩
  | .ok none => return ⟨id, .unchanged .notAClass, []⟩
  | .ok (some view) =>
      match ← classify view with
      | (.ineligible reason, notes) => return ⟨id, .unchanged reason, notes⟩
      | (.eligible eligible, notes) =>
          let partition := view.partition eligible
          return ⟨id, .replace ⟨view.toRecord eligible partition, partition⟩,
            notes ++ partition.diagnostics⟩

theorem judge_eq (tree : SyntaxTree) (id : NodeId) : judge tree id = .ok (tree.judge id) := by
  rw [judge, resolveClass_eq, ok_bind, SyntaxTree.judge]
  cases tree.resolveClass id with
  | error violation => rfl
  | ok view =>
      cases view with
      | none => rfl
      | some view =>
          dsimp only
          rw [classify_eq, ok_bind]
          generalize view.classifyWithDiagnostics = classified
          obtain ⟨classification, notes⟩ := classified
          cases classification <;> rfl

def report (tree : SyntaxTree) (judged : Judged) (outcome : ClassOutcome) : Run ClassReport := do
  let node? := tree.node? judged.id
  let line ← match node?.bind Node.source? with
    | none => pure 0
    | some source => lineOf tree.source source.range.start
  return ⟨judged.id, (node?.bind Node.name?).getD "<unknown>".toList, line, outcome,
    judged.diagnostics⟩

/-- Converts the classes of the unit and, in turn, their static member classes. -/
def convertUnit (tree : SyntaxTree) : Run UnitConversion := do
  let judged ← tree.targets.mapM (judge tree)
  let state := Rebuild.run tree (replacementsOf judged)
  let outcomes := judged.filterMap fun entry => (state.outcome? entry).map (entry, ·)
  let reports ← outcomes.mapM fun (entry, outcome) => report tree entry outcome
  return ⟨state.tree, reports⟩

def print (tree : SyntaxTree) : Run Text :=
  match tree.print? with
  | some text => return text
  | none => .error (.fault .unprintable)

/-- Parses a source, converts its classes and prints what they become. -/
def process (source : Text) : Run Text := do
  let tree ← parse source
  let conversion ← convertUnit tree
  print conversion.tree

section

variable {source : Text} {tree : SyntaxTree} (unit : ParsedUnit source tree)
include unit

/-- A declaration starts inside its source. -/
theorem report_eq (judged : Judged) (outcome : ClassOutcome) :
    report tree judged outcome = .ok (tree.report judged outcome) := by
  rw [report, SyntaxTree.report]
  cases found : tree.node? judged.id with
  | none => rfl
  | some node =>
      obtain ⟨excerpt, isSource, written⟩ := unit.exists_excerpt found
      have inside : excerpt.range.start ≤ Text.byteSize tree.source := by
        obtain ⟨-, rest, here⟩ := rest_of_cut (cut_of_slice? written.text)
        rw [unit.source_eq, here.byteSize]
        exact Nat.le_add_right _ _
      simp only [Option.bind_some, isSource, lineOf, if_pos inside]
      rfl

theorem convertUnit_eq : convertUnit tree = .ok tree.convertUnit := by
  have judged : judge tree = fun id => pure (tree.judge id) := funext (judge_eq tree)
  have reported : (fun entry : Judged × ClassOutcome => report tree entry.1 entry.2) =
      fun entry => pure (tree.report entry.1 entry.2) :=
    funext fun entry => report_eq unit entry.1 entry.2
  rw [convertUnit, judged, List.mapM_pure, pure_eq_ok, ok_bind]
  dsimp only
  rw [reported, List.mapM_pure, pure_eq_ok, ok_bind, List.map_filterMap]
  simp only [Option.map_map]
  rfl

theorem print_convertUnit_eq : print tree.convertUnit.tree = .ok tree.convertUnit.tree.print := by
  have printed := SyntaxTree.print?_of_loggedPrint? unit.loggedPrint?_convertUnit
  rw [print, SyntaxTree.print, printed]
  rfl

end

/-- Every source is parsed, converted and printed by byte offsets and token indices as it is over
its code, and none of it meets a fault: each token that is read is there, each text is cut between
two of its characters, no position is taken from a smaller one, each range starts before it stops,
and each loop goes on. -/
theorem process_faultless (source : Text) :
    parse source = lift (JavaRecords.parse source) ∧
      (parse source >>= convertUnit) =
        lift ((JavaRecords.parse source).map SyntaxTree.convertUnit) ∧
      process source =
        lift ((JavaRecords.parse source).map fun tree => tree.convertUnit.tree.print) ∧
      ∀ fault, process source ≠ .error (.fault fault) := by
  have converted : (parse source >>= convertUnit) =
      lift ((JavaRecords.parse source).map SyntaxTree.convertUnit) := by
    rw [parse_eq]
    cases parsed : JavaRecords.parse source with
    | error error => rfl
    | ok tree =>
        obtain ⟨unit⟩ := ParsedUnit.exists_of_parse parsed
        exact convertUnit_eq unit
  have processed : process source =
      lift ((JavaRecords.parse source).map fun tree => tree.convertUnit.tree.print) := by
    rw [process, parse_eq]
    cases parsed : JavaRecords.parse source with
    | error error => rfl
    | ok tree =>
        obtain ⟨unit⟩ := ParsedUnit.exists_of_parse parsed
        rw [lift_ok, ok_bind, convertUnit_eq unit, ok_bind, print_convertUnit_eq unit]
        rfl
  refine ⟨parse_eq source, converted, processed, ?_⟩
  rw [processed]
  exact lift_ne_fault _

end JavaRecords.Indexed
