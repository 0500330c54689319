import JavaRecords.Print

set_option autoImplicit false

namespace JavaRecords

namespace SyntaxTree

def loggedList (one : NodeId → Nat → Option ((Text × Nat) × List NodeId)) :
    List NodeId → Nat → Option ((Text × Nat) × List NodeId)
  | [], cursor => some (([], cursor), [])
  | id :: rest, cursor => do
      let ((text, cursor), log) ← one id cursor
      let ((texts, cursor), logs) ← loggedList one rest cursor
      some ((text ++ texts, cursor), log ++ logs)

def loggedLines (newline : Text) (member : NodeId → Option (Text × List NodeId)) :
    List NodeId → Option (Text × List NodeId)
  | [] => some ([], [])
  | [id] => do
      let (text, log) ← member id
      some (newline ++ text, log)
  | id :: rest => do
      let (text, log) ← member id
      let (lines, logs) ← loggedLines newline member rest
      some (newline ++ text ++ newline ++ lines, log ++ logs)

mutual

def loggedNode (tree : SyntaxTree) (newline : Text) :
    (fuel : Nat) → NodeId → (cursor : Nat) → Option ((Text × Nat) × List NodeId)
  | 0, _, _ => none
  | fuel + 1, id, cursor =>
      match tree.node? id with
      | some (.record record) =>
          if record.extent.start < cursor ||
              Text.byteSize tree.source < record.extent.stop then none
          else do
            let gap ← Text.slice? tree.source cursor record.extent.start
            let (text, log) ← loggedRecord tree newline fuel id record
            let separator := if record.extent.start > 0 then newline else []
            some ((gap ++ separator ++ text, record.extent.stop), log)
      | some (.classDecl decl) => loggedList (loggedNode tree newline fuel) decl.members cursor
      | _ => some (([], cursor), [])

def loggedRecord (tree : SyntaxTree) (newline : Text) :
    (fuel : Nat) → NodeId → RecordDecl → Option (Text × List NodeId)
  | 0, _, _ => none
  | fuel + 1, id, record => do
      let indent := record.indent ++ memberIndent
      let (members, log) ←
        loggedLines newline (loggedMember tree newline fuel indent) record.members
      let dangling := (tree.trivia.dangling id).flatMap fun comment =>
        newline ++ indent ++ comment.text
      some (commentLines record.indent newline (tree.trivia.leading id) ++ recordHeader record
        ++ members ++ dangling ++ newline ++ record.indent ++ ['}']
        ++ commentTail (tree.trivia.trailing id), id :: log)

def loggedMember (tree : SyntaxTree) (newline : Text) :
    (fuel : Nat) → (indent : Text) → NodeId → Option (Text × List NodeId)
  | 0, _, _ => none
  | fuel + 1, indent, id =>
      match tree.node? id with
      | none => some ([], [])
      | some (.record record) => loggedRecord tree newline fuel id record
      | some node =>
          match node.source? with
          | none => some ([], [])
          | some source => do
              let indent := if source.indent.isEmpty then indent else source.indent
              let leading := (tree.trivia.leading id).filter fun comment =>
                comment.span.stop ≤ source.range.start
              let (text, log) ← match node with
                | .classDecl decl => loggedVerbatim tree newline fuel source decl.members
                | _ => some (source.text, [])
              some (commentLines indent newline leading ++ indent ++ text
                ++ commentTail (tree.trivia.trailing id), log)

def loggedVerbatim (tree : SyntaxTree) (newline : Text) :
    (fuel : Nat) → Excerpt → List NodeId → Option (Text × List NodeId)
  | 0, _, _ => none
  | fuel + 1, source, members =>
      let range := source.range
      if Text.slice? tree.source range.start range.stop = some source.text then do
        let ((text, cursor), log) ←
          loggedList (loggedNode tree newline fuel) members range.start
        let rest ← Text.slice? tree.source (min cursor range.stop) range.stop
        some (text ++ rest, log)
      else some (source.text, [])

end

/-- The source that a tree stands for, and the records printed for it. -/
def loggedPrint? (tree : SyntaxTree) : Option (Text × List NodeId) := do
  let newline := Text.lineEnding tree.source
  let ((text, cursor), log) ←
    loggedList (loggedNode tree newline tree.printFuel) tree.unit.types 0
  let rest ← Text.slice? tree.source cursor (Text.byteSize tree.source)
  some (text ++ rest, log)

/-- What is printed with a log is printed without. -/
def Agrees {α : Type} (logged : Option (α × List NodeId)) (plain : Option α) : Prop :=
  ∀ result log, logged = some (result, log) → plain = some result

theorem loggedList_agrees {one : NodeId → Nat → Option ((Text × Nat) × List NodeId)}
    {plain : NodeId → Nat → Option (Text × Nat)}
    (agrees : ∀ id cursor, Agrees (one id cursor) (plain id cursor))
    (ids : List NodeId) (cursor : Nat) :
    Agrees (loggedList one ids cursor) (spliceList plain ids cursor) := by
  induction ids generalizing cursor with
  | nil =>
      intro result log logged
      cases logged
      rfl
  | cons id rest ih =>
      intro result log logged
      rw [loggedList] at logged
      obtain ⟨⟨⟨text, next⟩, first⟩, here, logged⟩ := Option.bind_eq_some_iff.mp logged
      obtain ⟨⟨⟨texts, last⟩, others⟩, later, logged⟩ := Option.bind_eq_some_iff.mp logged
      cases logged
      have printed := agrees id cursor _ _ here
      have printedRest := ih next _ _ later
      simp [spliceList, printed, printedRest]

theorem loggedLines_agrees {newline : Text} {member : NodeId → Option (Text × List NodeId)}
    {plain : NodeId → Option Text} (agrees : ∀ id, Agrees (member id) (plain id))
    (ids : List NodeId) : Agrees (loggedLines newline member ids)
    (memberLines newline plain ids) := by
  fun_induction loggedLines newline member ids with
  | case1 =>
      intro result log logged
      cases logged
      rfl
  | case2 id =>
      intro result log logged
      obtain ⟨⟨text, first⟩, here, logged⟩ := Option.bind_eq_some_iff.mp logged
      cases logged
      simp [memberLines, agrees id _ _ here]
  | case3 id rest several ih =>
      intro result log logged
      obtain ⟨⟨text, first⟩, here, logged⟩ := Option.bind_eq_some_iff.mp logged
      obtain ⟨⟨lines, others⟩, later, logged⟩ := Option.bind_eq_some_iff.mp logged
      cases logged
      rw [memberLines]
      · simp [agrees id _ _ here, ih _ _ later]
      · exact several

/-- The four routines of the printer agree with those that keep a log. -/
structure LogsAgree (tree : SyntaxTree) (newline : Text) (fuel : Nat) : Prop where
  node : ∀ id cursor, Agrees (loggedNode tree newline fuel id cursor)
    (spliceNode tree newline fuel id cursor)
  record : ∀ id record, Agrees (loggedRecord tree newline fuel id record)
    (recordText tree newline fuel id record)
  member : ∀ indent id, Agrees (loggedMember tree newline fuel indent id)
    (memberText tree newline fuel indent id)
  verbatim : ∀ source members, Agrees (loggedVerbatim tree newline fuel source members)
    (verbatimText tree newline fuel source members)

section

variable {tree : SyntaxTree} {newline : Text} {fuel : Nat}

theorem loggedNode_agrees (agrees : tree.LogsAgree newline fuel) (id : NodeId) (cursor : Nat) :
    Agrees (loggedNode tree newline (fuel + 1) id cursor)
      (spliceNode tree newline (fuel + 1) id cursor) := by
  intro result log logged
  rw [loggedNode] at logged
  rw [spliceNode]
  cases found : tree.node? id with
  | none =>
      rw [found] at logged
      cases logged
      rfl
  | some node =>
      rw [found] at logged
      cases node
      case record record =>
        dsimp only at logged ⊢
        split at logged
        · cases logged
        · rename_i fits
          obtain ⟨gap, sliced, logged⟩ := Option.bind_eq_some_iff.mp logged
          obtain ⟨⟨text, others⟩, printed, logged⟩ := Option.bind_eq_some_iff.mp logged
          cases logged
          rw [if_neg fits, sliced]
          simp [agrees.record id record _ _ printed]
      case classDecl decl => exact loggedList_agrees agrees.node _ _ _ _ logged
      all_goals
        cases logged
        rfl

theorem loggedRecord_agrees (agrees : tree.LogsAgree newline fuel) (id : NodeId)
    (record : RecordDecl) : Agrees (loggedRecord tree newline (fuel + 1) id record)
      (recordText tree newline (fuel + 1) id record) := by
  intro result log logged
  rw [loggedRecord] at logged
  obtain ⟨⟨lines, others⟩, printed, logged⟩ := Option.bind_eq_some_iff.mp logged
  cases logged
  have plain :=
    loggedLines_agrees (agrees.member (record.indent ++ memberIndent)) _ _ _ printed
  rw [recordText, plain]
  rfl

theorem loggedMember_agrees (agrees : tree.LogsAgree newline fuel) (indent : Text) (id : NodeId) :
    Agrees (loggedMember tree newline (fuel + 1) indent id)
      (memberText tree newline (fuel + 1) indent id) := by
  intro result log logged
  rw [loggedMember] at logged
  rw [memberText]
  cases found : tree.node? id with
  | none =>
      rw [found] at logged
      cases logged
      rfl
  | some node =>
      rw [found] at logged
      cases node
      case record record => exact agrees.record id record _ _ logged
      case classDecl decl =>
        obtain ⟨⟨text, others⟩, printed, logged⟩ := Option.bind_eq_some_iff.mp logged
        cases logged
        simp [Node.source?, agrees.verbatim _ _ _ _ printed]
      all_goals
        cases logged
        rfl

theorem loggedVerbatim_agrees (agrees : tree.LogsAgree newline fuel) (source : Excerpt)
    (members : List NodeId) : Agrees (loggedVerbatim tree newline (fuel + 1) source members)
      (verbatimText tree newline (fuel + 1) source members) := by
  intro result log logged
  rw [loggedVerbatim] at logged
  rw [verbatimText]
  dsimp only at logged ⊢
  split at logged
  · rename_i exact_
    obtain ⟨⟨⟨text, cursor⟩, others⟩, printed, logged⟩ := Option.bind_eq_some_iff.mp logged
    obtain ⟨rest, sliced, logged⟩ := Option.bind_eq_some_iff.mp logged
    cases logged
    rw [if_pos exact_, loggedList_agrees agrees.node _ _ _ _ printed]
    simp [sliced]
  · rename_i inexact
    cases logged
    rw [if_neg inexact]

end

theorem logged_agrees (tree : SyntaxTree) (newline : Text) (fuel : Nat) :
    tree.LogsAgree newline fuel := by
  induction fuel with
  | zero =>
      refine ⟨?_, ?_, ?_, ?_⟩
      all_goals
        intro _ _ result log logged
        simp [loggedNode, loggedRecord, loggedMember, loggedVerbatim] at logged
  | succ fuel ih =>
      exact ⟨loggedNode_agrees ih, loggedRecord_agrees ih, loggedMember_agrees ih,
        loggedVerbatim_agrees ih⟩

theorem print?_of_loggedPrint? {tree : SyntaxTree} {text : Text} {log : List NodeId}
    (logged : tree.loggedPrint? = some (text, log)) : tree.print? = some text := by
  unfold loggedPrint? at logged
  obtain ⟨⟨⟨front, cursor⟩, others⟩, printed, logged⟩ := Option.bind_eq_some_iff.mp logged
  obtain ⟨rest, sliced, logged⟩ := Option.bind_eq_some_iff.mp logged
  cases logged
  have plain := loggedList_agrees (logged_agrees tree _ tree.printFuel).node _ _ _ _ printed
  simp [print?, plain, sliced]

end SyntaxTree

end JavaRecords
