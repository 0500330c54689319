import JavaRecords.Glob.Basic

set_option autoImplicit false

namespace JavaRecords.Glob

/-- The ranges of a class while it is being read, last one first. -/
structure ClassState where
  ranges : List (Char × Char) := []
  /-- Whether a hyphen waits for the end of the last range. -/
  isOpen : Bool := false

/-- Adds a character: the end of the last range after a hyphen, a range of its own otherwise. -/
def ClassState.add (state : ClassState) (c : Char) : Except SyntaxError ClassState :=
  match state.isOpen, state.ranges with
  | true, (low, _) :: rest =>
      if c < low then .error (.invalidRange low c) else .ok ⟨(low, c) :: rest, false⟩
  | _, ranges => .ok ⟨(c, c) :: ranges, false⟩

/-- The ranges of a class that ends here. A hyphen at the end stands for itself. -/
def ClassState.finish (state : ClassState) : List (Char × Char) :=
  (if state.isOpen then ('-', '-') :: state.ranges else state.ranges).reverse

def readMembers (state : ClassState) : Text → Except SyntaxError (List (Char × Char) × Text)
  | [] => .error .unclosedClass
  | c :: rest =>
      if c = ']' && !state.ranges.isEmpty then .ok (state.finish, rest)
      else if c = '-' && !state.isOpen && !state.ranges.isEmpty then
        readMembers { state with isOpen := true } rest
      else
        match state.add c with
        | .error error => .error error
        | .ok state => readMembers state rest

theorem readMembers_length {state : ClassState} {text rest : Text} {ranges : List (Char × Char)}
    (found : readMembers state text = .ok (ranges, rest)) : rest.length < text.length := by
  fun_induction readMembers state text <;> grind

def readClass (text : Text) : Except SyntaxError (CharClass × Text) :=
  match text with
  | '!' :: rest | '^' :: rest =>
      (readMembers {} rest).map fun (ranges, rest) => (⟨true, ranges⟩, rest)
  | _ => (readMembers {} text).map fun (ranges, rest) => (⟨false, ranges⟩, rest)

theorem readClass_length {text rest : Text} {members : CharClass}
    (found : readClass text = .ok (members, rest)) : rest.length < text.length := by
  have shorter {inner : Text} {negated : Bool}
      (h : (readMembers {} inner).map (fun (ranges, rest) => (CharClass.mk negated ranges, rest)) =
        .ok (members, rest)) : rest.length < inner.length := by
    cases read : readMembers {} inner with
    | error error => simp [read, Except.map] at h
    | ok value =>
        simp only [read, Except.map, Except.ok.injEq, Prod.mk.injEq] at h
        exact readMembers_length (read.trans (by rw [← h.2]))
  unfold readClass at found
  split at found
  · exact Nat.lt_succ_of_lt (shorter found)
  · exact Nat.lt_succ_of_lt (shorter found)
  · exact shorter found

/-- A group that is still open: the branch around it and its branches so far, each last part first
and the last branch first. -/
structure OpenGroup where
  outer : List Part
  branches : List (List Part)

/-- What has been read of a pattern: its branch, last part first, the groups that are still open,
and the last character, which decides what two stars mean. -/
structure State where
  /-- The branch that is being read, last part first. -/
  branch : List Part := []
  /-- The open groups, innermost first. -/
  groups : List OpenGroup := []
  /-- The last character that was read. -/
  last : Option Char := none

namespace State

/-- Adds a part that ends with the character `c`. -/
def push (state : State) (part : Part) (c : Char) : State :=
  { state with branch := part :: state.branch, last := some c }

def openGroup (state : State) : State :=
  { branch := [], groups := ⟨state.branch, []⟩ :: state.groups, last := some '\x7b' }

/-- Ends a branch of the innermost group and starts the next. A comma outside of every group stands
for itself. -/
def nextBranch (state : State) : State :=
  match state.groups with
  | [] => state.push (.literal ',') ','
  | group :: groups =>
      { branch := []
        groups := { group with branches := state.branch :: group.branches } :: groups
        last := some ',' }

def closeGroup (state : State) : Except SyntaxError State :=
  match state.groups with
  | [] => .error .unopenedGroup
  | group :: groups =>
      let branches := (state.branch :: group.branches).reverse.map List.reverse
      .ok { branch := .group branches :: group.outer, groups, last := some '\x7d' }

/-- Whether two stars after the parts of a branch may stand for directories: after a slash, and
inside a group also after an escaped comma or brace. -/
def mayRecurse (state : State) : Bool :=
  state.last == some '/' ||
    !state.groups.isEmpty && (state.last == some ',' || state.last == some '\x7b')

/-- Puts `part` in place of the slash before it. Directories at the start, and everything below a
directory, already include it. -/
def absorb (state : State) (part : Part) (c : Char) : State :=
  match state.branch with
  | .leadingDirectories :: _ | .descendants :: _ => { state with last := some c }
  | branch => { state with branch := part :: branch.tail, last := some c }

/-- Adds two stars, and gives what is left of the text after them. -/
def doubleStar (state : State) (rest : Text) : State × Text :=
  let plain := ((state.push .many '*').push .many '*', rest)
  if state.branch.isEmpty then
    match rest with
    | [] => (state.push .leadingDirectories '*', [])
    | '/' :: after => (state.push .leadingDirectories '/', after)
    | _ => plain
  else if state.mayRecurse then
    match rest with
    | [] => (state.absorb .descendants '*', [])
    | '/' :: after => (state.absorb .innerDirectories '/', after)
    | c :: _ =>
        if !state.groups.isEmpty && (c == ',' || c == '\x7d') then
          (state.absorb .descendants '*', rest)
        else plain
  else plain

theorem doubleStar_length (state : State) (rest : Text) :
    (state.doubleStar rest).2.length ≤ rest.length := by
  unfold doubleStar
  grind

end State

/-- Reads the rest of a pattern. -/
def parseFrom (state : State) (text : Text) : Except SyntaxError (List Part) :=
  match text with
  | [] => if state.groups.isEmpty then .ok state.branch.reverse else .error .unclosedGroup
  | '?' :: rest => parseFrom (state.push .any '?') rest
  | '*' :: '*' :: rest =>
      parseFrom (state.doubleStar rest).1 (state.doubleStar rest).2
  | '*' :: rest => parseFrom (state.push .many '*') rest
  | '[' :: rest =>
      match _found : readClass rest with
      | .error error => .error error
      | .ok (members, after) => parseFrom (state.push (.oneOf members) ']') after
  | '\x7b' :: rest => parseFrom state.openGroup rest
  | '\x7d' :: rest =>
      match state.closeGroup with
      | .error error => .error error
      | .ok state => parseFrom state rest
  | ',' :: rest => parseFrom state.nextBranch rest
  | ['\\'] => .error .danglingEscape
  | '\\' :: c :: rest => parseFrom (state.push (.literal c) c) rest
  | c :: rest => parseFrom (state.push (.literal c) c) rest
termination_by text.length
decreasing_by
  all_goals simp only [List.length_cons]
  all_goals try omega
  · have := state.doubleStar_length rest
    omega
  · have := readClass_length _found
    omega

def parse (pattern : Text) : Except SyntaxError (List Part) := parseFrom {} pattern

end JavaRecords.Glob
