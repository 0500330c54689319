import JavaRecords.Glob.Basic

set_option autoImplicit false

namespace JavaRecords.Glob

def slash : UInt8 := 47

/-- A set of places in a path: a truth value for each place, from the start of the path on. Every
part of a pattern leads from the places where it may begin to those where it may end. -/
abbrev Places := List Bool

namespace Places

def start (path : List UInt8) : Places := true :: path.map fun _ => false

def clear (places : Places) : Places := places.map fun _ => false

def union (left right : Places) : Places := List.zipWith (· || ·) left right

def step (accepts : UInt8 → Bool) (path : List UInt8) (places : Places) : Places :=
  false :: List.zipWith (fun place byte => place && accepts byte) places path

/-- The places from the first one of a set on; `before` says that the first was earlier. -/
def onward (before : Bool) : Places → Places
  | [] => []
  | place :: places => (before || place) :: onward (before || place) places

/-- The places of a set, and those after any later slash. -/
def directories (path : List UInt8) (places : Places) : Places :=
  places.union (step (· == slash) path (places.onward false))

theorem length_start (path : List UInt8) : (start path).length = path.length + 1 := by
  simp only [start, List.length_cons, List.length_map]

theorem length_step (accepts : UInt8 → Bool) (path : List UInt8) (places : Places)
    (whole : places.length = path.length + 1) :
    (places.step accepts path).length = path.length + 1 := by
  simp only [step, List.length_cons, List.length_zipWith, whole]
  omega

theorem length_onward (before : Bool) (places : Places) :
    (places.onward before).length = places.length := by
  induction places generalizing before with
  | nil => rfl
  | cons place places ih => simp only [onward, List.length_cons, ih]

end Places

/-- The members of a range of characters, as ranges of bytes. The last byte of the low end and the
first byte of the high end are the ends of a range, and their other bytes are members by
themselves. -/
def byteRanges (low high : Char) : List (UInt8 × UInt8) :=
  let single (byte : UInt8) := (byte, byte)
  if low = high then (String.utf8EncodeChar low).map single
  else
    match (String.utf8EncodeChar low).reverse, String.utf8EncodeChar high with
    | first :: front, last :: back => front.reverse.map single ++ [(first, last)] ++ back.map single
    | _, _ => []

def CharClass.contains (members : CharClass) (byte : UInt8) : Bool :=
  let listed := (members.ranges.flatMap fun (low, high) => byteRanges low high).any
    fun (low, high) => low ≤ byte && byte ≤ high
  listed != members.negated

mutual

/-- Whether a part leaves no trace in a pattern: a group with nothing in its branches. -/
def Part.isVoid : Part → Bool
  | .group branches => branchesVoid branches
  | _ => false

def partsVoid : List Part → Bool
  | [] => true
  | part :: parts => part.isVoid && partsVoid parts

def branchesVoid : List (List Part) → Bool
  | [] => true
  | branch :: branches => partsVoid branch && branchesVoid branches

end

mutual

def Part.ends (path : List UInt8) (places : Places) : Part → Places
  | .literal char =>
      (String.utf8EncodeChar char).foldl (fun places byte => places.step (· == byte) path) places
  | .any => places.step (fun _ => true) path
  | .many => places.onward false
  | .leadingDirectories => places.directories path
  | .descendants => (places.step (· == slash) path).onward false
  | .innerDirectories => (places.step (· == slash) path).directories path
  | .oneOf members => places.step members.contains path
  | .group branches =>
      if branchesVoid branches then places else branchEnds path places branches

def partEnds (path : List UInt8) (places : Places) : List Part → Places
  | [] => places
  | part :: parts => partEnds path (part.ends path places) parts

/-- The places where a branch of a group may end. Branches with nothing in them do not count. -/
def branchEnds (path : List UInt8) (places : Places) : List (List Part) → Places
  | [] => places.clear
  | branch :: branches =>
      let others := branchEnds path places branches
      if partsVoid branch then others else (partEnds path places branch).union others

end

def literalsWithout (barred : List Char) (parts : List Part) : Bool :=
  parts.all fun
    | .literal char => !barred.contains char
    | _ => false

/-- Whether parts, read from the end, come to a dot before a slash or a wildcard. -/
def endsInExtension : List Part → Bool
  | .literal char :: parts => char == '.' || (char != '/' && endsInExtension parts)
  | _ => false

/-- Whether a pattern asks for a file by its name, as in `**/name`, or by its extension, as in
`*.ext` and in every pattern of wildcards that ends in one. Literals alone ask for a path, and a
star before other literals asks for the end of a path. -/
def asksForName (pattern : List Part) : Bool :=
  let (below, parts) := match pattern with
    | .leadingDirectories :: parts => (true, parts)
    | _ => (false, pattern)
  if literalsWithout [] parts then below && !parts.isEmpty && literalsWithout ['/'] parts
  else if parts.head? matches some .many && literalsWithout [] parts.tail then
    parts.tail.head? matches some (.literal '.') && literalsWithout ['.', '/'] parts.tail.tail
  else endsInExtension pattern.reverse

/-- Whether the last name of a path is two dots. -/
def endsInParent (path : Text) : Bool := path.reverse.takeWhile (· ≠ '/') == ['.', '.']

/-- Whether a pattern matches a whole path. Two stars alone match every path. -/
def isMatch (pattern : List Part) (path : Text) : Bool :=
  match pattern with
  | [.leadingDirectories] => true
  | _ => (partEnds path.bytes (.start path.bytes) pattern).getLast? == some true &&
      !(asksForName pattern && endsInParent path)

end JavaRecords.Glob
