import JavaRecords.Cli.Sources
import JavaRecords.Proofs.Glob.Ending

set_option autoImplicit false

namespace JavaRecords

namespace Path

/-- The directories that a path lies in, outermost first: what stands before each of its slashes. -/
def ancestors : Text → List Text
  | [] => []
  | c :: rest =>
      let inner := (ancestors rest).map (c :: ·)
      if c = '/' then [] :: inner else inner

/-- Whether a text can be the name of a file: it has some character, and no slash. -/
def isName (name : Text) : Bool := !name.isEmpty && !name.contains '/'

theorem ancestors_append (front back : Text) :
    ancestors (front ++ back) = ancestors front ++ (ancestors back).map (front ++ ·) := by
  induction front with
  | nil => simp only [List.nil_append, ancestors, List.map_id']
  | cons c front ih =>
      simp only [List.cons_append, ancestors, ih, List.map_append, List.map_map]
      split <;> rfl

theorem ancestors_of_not_mem {name : Text} (single : '/' ∉ name) : ancestors name = [] := by
  induction name with
  | nil => rfl
  | cons c name ih =>
      rw [List.mem_cons, not_or] at single
      rw [ancestors, ih single.2, if_neg (Ne.symm single.1)]
      rfl

theorem exists_of_mem_ancestors {path directory : Text} (above : directory ∈ ancestors path) :
    ∃ below, path = directory ++ '/' :: below := by
  induction path generalizing directory with
  | nil => exact absurd above List.not_mem_nil
  | cons c path ih =>
      have inner (inside : directory ∈ (ancestors path).map (c :: ·)) :
          ∃ below, c :: path = directory ++ '/' :: below := by
        obtain ⟨deeper, inPath, rfl⟩ := List.mem_map.mp inside
        obtain ⟨below, rfl⟩ := ih inPath
        exact ⟨below, rfl⟩
      rw [ancestors] at above
      split at above
      · rename_i slash
        obtain rfl | above := List.mem_cons.mp above
        · exact ⟨path, by rw [slash, List.nil_append]⟩
        · exact inner above
      · exact inner above

/-- What stands before the paths inside a directory: the directory, and a slash if one is
missing. -/
theorem join_nil (directory : Text) :
    join directory [] =
      if directory.isEmpty || directory.getLast? == some '/' then directory
      else directory ++ ['/'] := by
  simp only [join, List.append_nil]

theorem join_relative {path : Text} (directory : Text) (relative : path.head? ≠ some '/') :
    join directory path = join directory [] ++ path := by
  rw [join_nil, join.eq_2 directory path (fun _ slash => relative (slash ▸ rfl))]
  split <;> rfl

section Names

variable {name : Text} (named : isName name = true)

include named

theorem not_mem_of_isName : '/' ∉ name := by
  rw [← List.contains_iff_mem, Bool.not_eq_true]
  exact (Bool.not_eq_true' _).mp (Bool.and_eq_true_iff.mp named).2

theorem ne_nil_of_isName : name ≠ [] := by
  rw [← List.isEmpty_eq_false_iff]
  exact (Bool.not_eq_true' _).mp (Bool.and_eq_true_iff.mp named).1

theorem head?_of_isName : name.head? ≠ some '/' :=
  fun first => not_mem_of_isName named (List.mem_of_head? first)

/-- What stands before the paths inside an entry of a directory. -/
theorem join_join (directory : Text) :
    join (join directory name) [] = join directory [] ++ (name ++ ['/']) := by
  rw [join_relative directory (head?_of_isName named)]
  generalize join directory [] = base
  have filled : base ++ name ≠ [] :=
    List.append_ne_nil_of_right_ne_nil base (ne_nil_of_isName named)
  have closed : (base ++ name).getLast? ≠ some '/' := by
    rw [List.getLast?_append_of_ne_nil base (ne_nil_of_isName named)]
    exact fun last => not_mem_of_isName named (List.mem_of_getLast? last)
  rw [join_nil, if_neg, List.append_assoc]
  rw [Bool.or_eq_true, not_or, List.isEmpty_iff, beq_iff_eq]
  exact ⟨filled, closed⟩

theorem ancestors_join_join (directory : Text) :
    ancestors (join (join directory name) []) =
      ancestors (join directory []) ++ [join directory name] := by
  rw [join_join named, ancestors_append, ancestors_append,
    ancestors_of_not_mem (not_mem_of_isName named), join_relative directory (head?_of_isName named)]
  simp only [ancestors, List.nil_append, List.map_cons, List.map_nil, if_true, List.append_nil]

end Names

end Path

mutual

def Entry.isNamed : Entry → Bool
  | .file _ => true
  | .directory entries => entriesNamed entries

def entriesNamed : List (Text × Entry) → Bool
  | [] => true
  | (name, entry) :: rest => Path.isName name && entry.isNamed && entriesNamed rest

end

namespace Entry

variable {skip : Text → Bool}

mutual

/-- The paths of the files below a directory go on from the directory. -/
theorem prefix_of_mem_filesBelow (here : Text) (entry : Entry)
    (isDirectory : entry.isDirectory = true) (named : entry.isNamed = true)
    {file : Text × Option Text} (found : file ∈ entry.filesBelow skip here) :
    ∃ below, file.1 = Path.join here [] ++ below := by
  cases entry with
  | file text => exact absurd isDirectory Bool.false_ne_true
  | directory entries =>
      rw [isNamed] at named
      rw [filesBelow] at found
      exact prefix_of_mem_filesOf here entries named found

theorem prefix_of_mem_filesOf (here : Text) (entries : List (Text × Entry))
    (named : entriesNamed entries = true) {file : Text × Option Text}
    (found : file ∈ filesOf skip here entries) : ∃ below, file.1 = Path.join here [] ++ below := by
  cases entries with
  | nil =>
      rw [filesOf] at found
      exact absurd found List.not_mem_nil
  | cons first rest =>
      obtain ⟨name, entry⟩ := first
      rw [filesOf] at found
      simp only [entriesNamed, Bool.and_eq_true] at named
      obtain ⟨⟨isName, namedEntry⟩, namedRest⟩ := named
      obtain inFirst | inRest := List.mem_append.mp found
      · split at inFirst
        · exact absurd inFirst List.not_mem_nil
        · cases entry with
          | file text =>
              rw [filesBelow, List.mem_singleton] at inFirst
              exact ⟨name, by rw [inFirst, Path.join_relative here (Path.head?_of_isName isName)]⟩
          | directory entries =>
              obtain ⟨below, same⟩ :=
                prefix_of_mem_filesBelow (Path.join here name) (.directory entries) rfl namedEntry
                  inFirst
              exact ⟨name ++ ['/'] ++ below, by
                rw [same, Path.join_join isName, List.append_assoc]⟩
      · exact prefix_of_mem_filesOf here rest namedRest inRest

end

/-- Whether a file lies in a directory that is skipped, below the directory `here`. -/
def isPruned (skip : Text → Bool) (here : Text) (file : Text × Option Text) : Bool :=
  ((Path.ancestors file.1).drop (Path.ancestors (Path.join here [])).length).any skip

/-- A file below an entry of a directory is pruned if the entry is skipped or a directory below it
is. -/
theorem isPruned_join {here name below : Text} {text : Option Text}
    (named : Path.isName name = true) :
    isPruned skip here (Path.join (Path.join here name) [] ++ below, text) =
      (skip (Path.join here name) ||
        isPruned skip (Path.join here name)
          (Path.join (Path.join here name) [] ++ below, text)) := by
  simp only [isPruned, Path.ancestors_append]
  rw [List.drop_left, Path.ancestors_join_join named, List.append_assoc, List.drop_left]
  simp only [List.cons_append, List.nil_append, List.any_cons]

theorem isPruned_file {here name : Text} {text : Option Text} (named : Path.isName name = true) :
    isPruned skip here (Path.join here name, text) = false := by
  rw [isPruned, Path.join_relative here (Path.head?_of_isName named), Path.ancestors_append,
    Path.ancestors_of_not_mem (Path.not_mem_of_isName named)]
  simp only [List.map_nil, List.append_nil, List.drop_length, List.any_nil]

mutual

/-- The walk of a directory finds the files below it that are in no skipped directory. -/
theorem filesBelow_eq_filter (here : Text) (entry : Entry)
    (isDirectory : entry.isDirectory = true) (named : entry.isNamed = true) :
    entry.filesBelow skip here =
      (entry.filesBelow (fun _ => false) here).filter (!isPruned skip here ·) := by
  cases entry with
  | file text => exact absurd isDirectory Bool.false_ne_true
  | directory entries =>
      rw [isNamed] at named
      rw [filesBelow, filesBelow]
      exact filesOf_eq_filter here entries named

theorem filesOf_eq_filter (here : Text) (entries : List (Text × Entry))
    (named : entriesNamed entries = true) :
    filesOf skip here entries =
      (filesOf (fun _ => false) here entries).filter (!isPruned skip here ·) := by
  cases entries with
  | nil => rw [filesOf, filesOf, List.filter_nil]
  | cons first rest =>
      obtain ⟨name, entry⟩ := first
      simp only [entriesNamed, Bool.and_eq_true] at named
      obtain ⟨⟨isName, namedEntry⟩, namedRest⟩ := named
      rw [filesOf, filesOf, List.filter_append, filesOf_eq_filter here rest namedRest]
      congr 1
      simp only [Bool.and_false, Bool.false_eq_true, if_false]
      cases entry with
      | file text =>
          simp only [isDirectory, Bool.false_and, Bool.false_eq_true, if_false, filesBelow,
            List.filter_cons, isPruned_file isName, Bool.not_false, if_true, List.filter_nil]
      | directory entries =>
          have pruned {file : Text × Option Text}
              (found : file ∈ (directory entries).filesBelow (fun _ => false)
                (Path.join here name)) :
              isPruned skip here file =
                (skip (Path.join here name) || isPruned skip (Path.join here name) file) := by
            obtain ⟨path, text⟩ := file
            obtain ⟨below, rfl⟩ := prefix_of_mem_filesBelow _ _ rfl namedEntry found
            exact isPruned_join isName
          simp only [isDirectory, Bool.true_and]
          split
          · rename_i skipped
            refine (List.filter_eq_nil_iff.mpr fun file found => ?_).symm
            rw [pruned found, skipped, Bool.true_or]
            exact Bool.false_ne_true
          · rename_i entered
            rw [filesBelow_eq_filter (Path.join here name) (directory entries) rfl namedEntry]
            refine List.filter_congr fun file found => ?_
            rw [pruned found, Bool.not_eq_true _ |>.mp entered, Bool.false_or]

end

def allFiles (entry : Entry) : List (Text × Option Text) := entry.filesBelow (fun _ => false) []

end Entry

namespace FileMatcher

variable {matcher : FileMatcher}

/-- Whether no pattern that leaves files out needs an underscore at the end of its words. -/
def IsUniform (matcher : FileMatcher) : Prop :=
  ∀ pattern ∈ matcher.excluded, Glob.endingOf .plain pattern ≠ .strict

instance (matcher : FileMatcher) : Decidable matcher.IsUniform :=
  inferInstanceAs (Decidable (∀ pattern ∈ matcher.excluded, _))

/-- What leaves out an underscore leaves out everything else that may stand in its place. -/
theorem isExcluded_of_isExcluded_underscore (uniform : matcher.IsUniform) {base : Text}
    (below : Text) (probe : matcher.isExcluded (base ++ ['_']) = true) :
    matcher.isExcluded (base ++ below) = true := by
  obtain ⟨pattern, inExcluded, matched⟩ := List.any_eq_true.mp probe
  exact List.any_eq_true.mpr ⟨pattern, inExcluded,
    Glob.isMatch_of_isMatch_underscore below (uniform pattern inExcluded) matched⟩

theorem isMatch_of_isExcluded {path : Text} (excluded : matcher.isExcluded path = true) :
    matcher.isMatch path = false := by
  rw [isMatch, excluded, Bool.not_true, Bool.and_false]

/-- A directory that can be skipped has no file below it that is chosen. -/
theorem isMatch_join_of_isExcludedDirectory (uniform : matcher.IsUniform) {directory below : Text}
    (relative : below.head? ≠ some '/') (skipped : matcher.isExcludedDirectory directory = true) :
    matcher.isMatch (Path.join directory below) = false := by
  rw [isExcludedDirectory, Path.join_relative directory (by decide)] at skipped
  rw [Path.join_relative directory relative]
  exact isMatch_of_isExcluded (isExcluded_of_isExcluded_underscore uniform below skipped)

theorem isMatch_of_mem_ancestors (uniform : matcher.IsUniform) {directory path : Text}
    (above : directory ∈ Path.ancestors path)
    (skipped : matcher.isExcludedDirectory directory = true) : matcher.isMatch path = false := by
  obtain ⟨below, rfl⟩ := Path.exists_of_mem_ancestors above
  rw [isExcludedDirectory, Path.join_relative directory (by decide), Path.join_nil] at skipped
  refine isMatch_of_isExcluded ?_
  split at skipped
  · exact isExcluded_of_isExcluded_underscore uniform ('/' :: below) skipped
  · rw [List.append_cons]
    exact isExcluded_of_isExcluded_underscore uniform below skipped

end FileMatcher

/-- The files that a run chooses are those that match and are in no directory that is skipped. -/
theorem chosenFiles_eq_filter (matcher : FileMatcher) {entries : List (Text × Entry)}
    (named : (Entry.directory entries).isNamed = true) :
    chosenFiles matcher (.directory entries) =
      (Entry.directory entries).allFiles.filter fun file =>
        matcher.isMatch file.1 && !(Path.ancestors file.1).any matcher.isExcludedDirectory := by
  rw [chosenFiles, Entry.filesBelow_eq_filter [] _ rfl named, List.filter_filter]
  rfl

theorem chosenFiles_of_isUniform {matcher : FileMatcher} (uniform : matcher.IsUniform)
    {entries : List (Text × Entry)} (named : (Entry.directory entries).isNamed = true) :
    chosenFiles matcher (.directory entries) =
      (Entry.directory entries).allFiles.filter fun file => matcher.isMatch file.1 := by
  rw [chosenFiles_eq_filter matcher named]
  refine List.filter_congr fun file _ => ?_
  rw [Bool.and_eq_left_iff_imp]
  intro matched
  rw [Bool.not_eq_true', List.any_eq_false]
  intro directory above skipped
  rw [FileMatcher.isMatch_of_mem_ancestors uniform above skipped] at matched
  exact Bool.false_ne_true matched

theorem World.sources_directory {world : World} {config : FilesConfig} {matcher : FileMatcher}
    {root : Text} {entries : List (Text × Entry)} (read : config.matcher = .ok matcher)
    (found : world.files root = .ok (.directory entries)) :
    world.sources config root = readFiles root (chosenFiles matcher (.directory entries)) := by
  rw [World.sources, found]
  simp only [read]

/-- The sources of a run over a directory are the files that match and lie in no directory that is
skipped. If no pattern that leaves files out needs an underscore at the end of its words, no file
below a skipped directory matches, and the sources are all the files that match. -/
theorem FilesConfig.sources_of_matcher {config : FilesConfig} {matcher : FileMatcher}
    (read : config.matcher = .ok matcher) :
    (∀ (world : World) (root : Text) (entries : List (Text × Entry)),
      world.files root = .ok (.directory entries) →
      (Entry.directory entries).isNamed = true →
      world.sources config root = readFiles root ((Entry.directory entries).allFiles.filter
        fun file => matcher.isMatch file.1 &&
          !(Path.ancestors file.1).any matcher.isExcludedDirectory)) ∧
    (matcher.IsUniform →
      (∀ directory below : Text, below.head? ≠ some '/' →
        matcher.isExcludedDirectory directory = true →
        matcher.isMatch (Path.join directory below) = false) ∧
      ∀ (world : World) (root : Text) (entries : List (Text × Entry)),
        world.files root = .ok (.directory entries) →
        (Entry.directory entries).isNamed = true →
        world.sources config root = readFiles root ((Entry.directory entries).allFiles.filter
          fun file => matcher.isMatch file.1)) := by
  refine ⟨fun world root entries found named => ?_, fun uniform => ⟨?_, ?_⟩⟩
  · rw [World.sources_directory read found, chosenFiles_eq_filter matcher named]
  · intro directory below relative skipped
    exact FileMatcher.isMatch_join_of_isExcludedDirectory uniform relative skipped
  · intro world root entries found named
    rw [World.sources_directory read found, chosenFiles_of_isUniform uniform named]

/-- The default settings over a directory with two sources, one of them named with an underscore,
and a generated one. -/
theorem FilesConfig.default_sources_of_matcher :
    ∃ matcher, ({} : FilesConfig).matcher = .ok matcher ∧ matcher.IsUniform ∧
      matcher.isExcludedDirectory "a/target".toList = true ∧
      matcher.isMatch (Path.join "a/target".toList "B.java".toList) = false ∧
      (let entries : List (Text × Entry) :=
        [("_A.java".toList, .file (some [])),
          ("a".toList, .directory [("C.java".toList, .file (some [])),
            ("target".toList, .directory [("B.java".toList, .file (some []))])])]
      let world : World := ⟨fun _ => .ok (.directory entries), none⟩
      world.sources {} ['.'] = readFiles ['.'] ((Entry.directory entries).allFiles.filter
        fun file => matcher.isMatch file.1)) := by
  obtain ⟨matcher, read, uniform, skipped⟩ : ∃ matcher, ({} : FilesConfig).matcher = .ok matcher ∧
      matcher.IsUniform ∧ matcher.isExcludedDirectory "a/target".toList = true := by
    obtain ⟨matcher, read, checked⟩ := exists_ok_of_any
      (show (({} : FilesConfig).matcher.toOption.any fun matcher => decide matcher.IsUniform &&
        matcher.isExcludedDirectory "a/target".toList) = true by decide +kernel)
    obtain ⟨uniform, skipped⟩ := Bool.and_eq_true_iff.mp checked
    exact ⟨matcher, read, of_decide_eq_true uniform, skipped⟩
  obtain ⟨below, all⟩ := (FilesConfig.sources_of_matcher read).2 uniform
  exact ⟨matcher, read, uniform, skipped, below _ _ (by decide) skipped,
    all _ _ _ rfl (by decide)⟩

/-- A pattern for files whose names begin with an underscore leaves out whole directories. -/
theorem FilesConfig.underscored_hides_source :
    ∃ matcher, ({ excluded := ["**/_*".toList] } : FilesConfig).matcher = .ok matcher ∧
      matcher.isExcludedDirectory "src".toList = true ∧
      matcher.isMatch (Path.join "src".toList "A.java".toList) = true := by
  obtain ⟨matcher, read, checked⟩ := exists_ok_of_any
    (show (({ excluded := ["**/_*".toList] } : FilesConfig).matcher.toOption.any fun matcher =>
      matcher.isExcludedDirectory "src".toList &&
        matcher.isMatch (Path.join "src".toList "A.java".toList)) = true by decide +kernel)
  exact ⟨matcher, read, Bool.and_eq_true_iff.mp checked⟩

end JavaRecords
